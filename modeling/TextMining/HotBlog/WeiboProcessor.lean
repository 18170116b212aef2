import TextMining.CJParser
import TextMining.Lib.Codec
import Mathlib

/-!
# Counts of forwards and comments

The passes of the `WeiboProcessor` over classified, original, forward and
comment lines, and the logarithms that `CalcWeight` divides. The largest
forward count and the largest number of valid comments bound the counts of
every post, but the guard lets a largest count of 1 through, whose logarithm
is 0.
-/

namespace TextMining.HotBlog

open StringTool

structure BaseInfo where
  nType : Int
  nGarbageScore : Int
  nYCScore : Int
  nFilterScore : Int
  nForwardCount : Int
  nValidCmtCount : Int
  nContentLen : Int
  nUid : Nat
  strKeywords : List UInt8
  strDebugContent : List UInt8
  strDebugUrl : List UInt8

structure Processor where
  mapWeiboInfo : OrdMap Nat BaseInfo
  nMaxForwardCount : Int
  nMaxValidCmtCount : Int
  setContentKey : OrdSet Nat
  types : List Int
  /-- The fields that are set for the parser. -/
  vecFields : List (List UInt8)

structure Env where
  npos : Nat
  /-- The score of a client, as the configuration has it. -/
  ycSource : List UInt8 → List UInt8
  /-- The fingerprint of a text. -/
  textKey : List UInt8 → Option Nat
  /-- How many nicknames a text mentions. -/
  nickNames : List UInt8 → Nat

/-- A line, with what is left in each of its numbers, in the order of the reads,
when the read fails. -/
structure DataLine where
  bytes : List UInt8
  unsetInt : Nat → Int32
  unsetId : Nat → Nat

def DataLine.int (line : DataLine) (i : Nat) (field : List UInt8) : Int :=
  ((readInt field).getD (line.unsetInt i)).toInt

/-- `CTypeTool<unsigned long long>::StrTo`. -/
def DataLine.id (line : DataLine) (i : Nat) (field : List UInt8) : Nat :=
  readDecimal 64 (line.unsetId i) field

def Processor.init (types : List Int) : Processor where
  mapWeiboInfo := .empty
  nMaxForwardCount := 0
  nMaxValidCmtCount := 0
  setContentKey := .empty
  types := types
  vecFields := [text "flag", text "id", text "uid", text "filter", text "content",
    text "yc_source"]

-- ---------------------------------------------------------------------------
-- The lines
-- ---------------------------------------------------------------------------

section
variable (env : Env)

/-- A line that is read answers a code, negative for a wrong format. -/
abbrev Parsed := Option (Int × Processor)

/-- The first-level type, in the high ten bits. -/
def firstLevel (type : Int) : Int := type / 2 ^ 22 % 2 ^ 10

def parseLineClassified (p : Processor) (line : DataLine) : Parsed := do
  match ← SpliteByChar env.npos line.bytes 96 with
  | [_, _, keywords, _, mid, _, _, _, _, garbage, type] =>
    let mid := line.id 0 mid
    let garbageScore := line.int 1 garbage
    let flag := line.int 2 garbage
    if flag = 1 then some (1, p)
    else
      let type := firstLevel (line.int 0 type)
      if type ∉ p.types then some (1, p)
      else if mid ∈ p.mapWeiboInfo then some (1, p)
      else some (0, { p with
        mapWeiboInfo := p.mapWeiboInfo.insert mid
          { nType := type, nGarbageScore := garbageScore, nYCScore := 0, nFilterScore := 0,
            nForwardCount := 0, nValidCmtCount := 0, nContentLen := 0, nUid := 0,
            strKeywords := keywords, strDebugContent := [], strDebugUrl := [] } })
  | _ => some (-1, p)

/-- A text without a fingerprint is no duplicate. -/
def haveDuplicates (p : Processor) (strContent : List UInt8) : Bool × Processor :=
  match env.textKey (cstr strContent) with
  | none => (false, p)
  | some key =>
    if key ∈ p.setContentKey then (true, p)
    else (false, { p with setContentKey := p.setContentKey.insert key })

def value (mapJson : OrdMap (List UInt8) (List UInt8)) (field : String) : List UInt8 :=
  (mapJson.lookup (text field)).getD []

def parseLineOriginal (p : Processor) (line : DataLine) : Parsed := do
  let (ret, mapJson) ← CJParser.ParseJson env.npos p.vecFields line.bytes
  if ret = 0 then some (-1, p)
  else
    let mid := line.id 0 (value mapJson "id")
    match p.mapWeiboInfo.lookup mid with
    | none => some (1, p)
    | some info =>
      if line.int 0 (value mapJson "flag") = 1 then
        some (1, { p with mapWeiboInfo := p.mapWeiboInfo.erase mid })
      else
        let strContent := value mapJson "content"
        let strSrc := env.ycSource (cstr (value mapJson "yc_source"))
        let (duplicate, p) := haveDuplicates env p strContent
        if duplicate then some (1, p)
        else if env.nickNames (cstr strContent) > 4 then some (1, p)
        else some (0, { p with
          mapWeiboInfo := p.mapWeiboInfo.insert mid
            { info with
              nUid := line.id 1 (value mapJson "uid")
              nFilterScore := line.int 1 (value mapJson "filter")
              nYCScore := if strSrc = [] then 1 else line.int 2 strSrc
              strDebugContent := strContent
              nContentLen := strContent.length } })

def parseLineForward (p : Processor) (line : DataLine) : Parsed := do
  match ← SpliteByChar env.npos line.bytes 9 with
  | [_, url, _, zfCount, mid] =>
    let mid := line.id 0 mid
    let zfCount := line.int 0 zfCount
    match p.mapWeiboInfo.lookup mid with
    | none => some (1, p)
    | some info => some (0, { p with
        mapWeiboInfo := p.mapWeiboInfo.insert mid
          { info with nForwardCount := zfCount, strDebugUrl := url }
        nMaxForwardCount :=
          if zfCount > p.nMaxForwardCount then zfCount else p.nMaxForwardCount })
  | _ => some (-1, p)

/-- 回复 and 回覆 as they stand in the source file. -/
def isReply (strText : List UInt8) : Bool :=
  [0xbb, 0xd8, 0xb8, 0xb4].isPrefixOf strText || [0xbb, 0xd8, 0xb8, 0xb2].isPrefixOf strText

def afterReply (nValidCmtCount : Int) : Int :=
  if nValidCmtCount - 2 < 0 then 0 else nValidCmtCount - 2

def parseLineComment (p : Processor) (line : DataLine) : Parsed := do
  let p := { p with vecFields := [text "uid", text "mid", text "text", text "yc_mid"] }
  let (ret, mapJson) ← CJParser.ParseJson env.npos p.vecFields line.bytes
  if ret = 0 then some (-1, p)
  else
    let ycMid := line.id 0 (value mapJson "yc_mid")
    match p.mapWeiboInfo.lookup ycMid with
    | none => some (1, p)
    | some info =>
      if isReply (value mapJson "text") then
        some (1, { p with
          mapWeiboInfo := p.mapWeiboInfo.insert ycMid
            { info with nValidCmtCount := afterReply info.nValidCmtCount } })
      else
        let count := info.nValidCmtCount + 1
        some (0, { p with
          mapWeiboInfo := p.mapWeiboInfo.insert ycMid { info with nValidCmtCount := count }
          nMaxValidCmtCount :=
            if count > p.nMaxValidCmtCount then count else p.nMaxValidCmtCount })

/-- The loop over the lines of a file, which skips empty ones. -/
def processData (parseLine : Processor → DataLine → Parsed) (lines : List DataLine)
    (p : Processor) : Option Processor :=
  lines.foldlM (fun p line =>
    if line.bytes = [] then some p else (parseLine p line).map Prod.snd) p

def process (types : List Int) (classified original forward comment : List DataLine) :
    Option Processor := do
  let p ← processData (parseLineClassified env) classified (.init types)
  let p ← processData (parseLineOriginal env) original p
  let p ← processData (parseLineForward env) forward p
  processData (parseLineComment env) comment p

end

-- ---------------------------------------------------------------------------
-- The logarithms
-- ---------------------------------------------------------------------------

/-- An evaluation of `log10(count) / log10(max)`. -/
structure LogRatio where
  count : Int
  max : Int
deriving DecidableEq

def BaseInfo.logRatios (info : BaseInfo) (p : Processor) : List LogRatio :=
  if info.nContentLen ≤ 0 then []
  else (if info.nForwardCount > 0 then [⟨info.nForwardCount, p.nMaxForwardCount⟩] else []) ++
    if info.nValidCmtCount > 0 then [⟨info.nValidCmtCount, p.nMaxValidCmtCount⟩] else []

/-- The evaluations of `CalcWeight` once it is past its guard. -/
def calcWeight (p : Processor) : Option (List LogRatio) :=
  if p.nMaxForwardCount ≤ 0 ∨ p.nMaxValidCmtCount ≤ 0 then none
  else some (p.mapWeiboInfo.entries.flatMap fun e => e.2.logRatios p)

noncomputable def LogRatio.factor (r : LogRatio) : ℝ :=
  1 + Real.logb 10 r.count / Real.logb 10 r.max

structure LogRatio.WellDefined (r : LogRatio) : Prop where
  one_le : 1 ≤ r.count
  le_max : r.count ≤ r.max
  two_le : 2 ≤ r.max
  divisor : Real.logb 10 r.max ≠ 0
  factor : 1 ≤ r.factor ∧ r.factor ≤ 2

/-- Whatever is divided by the logarithm of a largest count of 1 is not
evaluated. -/
structure Divisible (p : Processor) : Prop where
  forward : p.nMaxForwardCount = 1 → ∀ e ∈ p.mapWeiboInfo.entries,
    0 < e.2.nContentLen → e.2.nForwardCount ≤ 0
  comment : p.nMaxValidCmtCount = 1 → ∀ e ∈ p.mapWeiboInfo.entries,
    0 < e.2.nContentLen → e.2.nValidCmtCount ≤ 0

-- ---------------------------------------------------------------------------
-- The counts of every post
-- ---------------------------------------------------------------------------

structure BaseInfo.Within (info : BaseInfo) (forward comment : Int) : Prop where
  forward : info.nForwardCount ≤ forward
  comment : info.nValidCmtCount ≤ comment

structure Bounded (p : Processor) : Prop where
  forward : 0 ≤ p.nMaxForwardCount
  comment : 0 ≤ p.nMaxValidCmtCount
  within : ∀ mid info, p.mapWeiboInfo.lookup mid = some info →
    info.Within p.nMaxForwardCount p.nMaxValidCmtCount

section
variable {env : Env} {p q : Processor} {line : DataLine} {code : Int}

theorem bounded_init (types : List Int) : Bounded (.init types) :=
  ⟨le_refl 0, le_refl 0, fun _ _ h => nomatch h⟩

theorem Bounded.insert (h : Bounded p) {mid : Nat} {info : BaseInfo}
    (hmap : q.mapWeiboInfo = p.mapWeiboInfo.insert mid info)
    (hforward : p.nMaxForwardCount ≤ q.nMaxForwardCount)
    (hcomment : p.nMaxValidCmtCount ≤ q.nMaxValidCmtCount)
    (hin : info.Within q.nMaxForwardCount q.nMaxValidCmtCount) : Bounded q := by
  refine ⟨h.forward.trans hforward, h.comment.trans hcomment, fun mid' info' hl => ?_⟩
  rw [hmap, OrdMap.lookup_insert] at hl
  split at hl
  · cases hl
    exact hin
  · have hold := h.within mid' info' hl
    exact ⟨hold.forward.trans hforward, hold.comment.trans hcomment⟩

variable (env p) in
theorem haveDuplicates_eq (strContent : List UInt8) :
    ∃ dup keys, haveDuplicates env p strContent = (dup, { p with setContentKey := keys }) := by
  unfold haveDuplicates
  split
  · exact ⟨_, _, rfl⟩
  · split
    · exact ⟨_, _, rfl⟩
    · exact ⟨_, _, rfl⟩

theorem Bounded.parseLineClassified (h : Bounded p)
    (hline : parseLineClassified env p line = some (code, q)) : Bounded q := by
  simp only [HotBlog.parseLineClassified, Option.bind_eq_bind, Option.bind_eq_some_iff] at hline
  obtain ⟨vecData, -, hline⟩ := hline
  split at hline
  · split at hline
    · cases hline
      exact h
    · split at hline
      · cases hline
        exact h
      · split at hline
        · cases hline
          exact h
        · cases hline
          exact h.insert rfl (le_refl _) (le_refl _) ⟨h.forward, h.comment⟩
  · cases hline
    exact h

theorem Bounded.parseLineOriginal (h : Bounded p)
    (hline : parseLineOriginal env p line = some (code, q)) : Bounded q := by
  simp only [HotBlog.parseLineOriginal, Option.bind_eq_bind, Option.bind_eq_some_iff] at hline
  obtain ⟨⟨ret, mapJson⟩, -, hline⟩ := hline
  obtain ⟨dup, keys, hdup⟩ := haveDuplicates_eq env p (value mapJson "content")
  have hkeys : Bounded { p with setContentKey := keys } := ⟨h.forward, h.comment, h.within⟩
  simp only [hdup] at hline
  split at hline
  · cases hline
    exact h
  · split at hline
    · cases hline
      exact h
    · rename_i info hinfo
      have hin := h.within _ _ hinfo
      split_ifs at hline
      all_goals cases hline
      · -- a forward, which is erased
        refine ⟨h.forward, h.comment, fun mid info hl => ?_⟩
        rw [OrdMap.lookup_erase] at hl
        split at hl
        · cases hl
        · exact h.within mid info hl
      · exact hkeys
      · exact hkeys
      all_goals exact hkeys.insert rfl (le_refl _) (le_refl _) ⟨hin.forward, hin.comment⟩

theorem Bounded.parseLineForward (h : Bounded p)
    (hline : parseLineForward env p line = some (code, q)) : Bounded q := by
  simp only [HotBlog.parseLineForward, Option.bind_eq_bind, Option.bind_eq_some_iff] at hline
  obtain ⟨vecData, -, hline⟩ := hline
  split at hline
  · split at hline
    · cases hline
      exact h
    · rename_i info hinfo
      cases hline
      refine h.insert rfl ?_ (le_refl _) ⟨?_, (h.within _ _ hinfo).comment⟩
      · dsimp only
        split
        · rename_i hgt
          exact le_of_lt hgt
        · exact le_refl _
      · dsimp only
        split
        · exact le_refl _
        · rename_i hle
          exact not_lt.mp hle
  · cases hline
    exact h

theorem afterReply_le (n : Int) : afterReply n ≤ max 0 n := by
  unfold afterReply
  split
  · exact le_max_left 0 n
  · exact (by omega : n - 2 ≤ n).trans (le_max_right 0 n)

theorem Bounded.parseLineComment (h : Bounded p)
    (hline : parseLineComment env p line = some (code, q)) : Bounded q := by
  simp only [HotBlog.parseLineComment, Option.bind_eq_bind, Option.bind_eq_some_iff] at hline
  obtain ⟨⟨ret, mapJson⟩, -, hline⟩ := hline
  split at hline
  · cases hline
    exact ⟨h.forward, h.comment, h.within⟩
  · split at hline
    · cases hline
      exact ⟨h.forward, h.comment, h.within⟩
    · rename_i info hinfo
      have hin := h.within _ _ hinfo
      split at hline
      · cases hline
        refine h.insert rfl (le_refl _) (le_refl _) ⟨hin.forward, ?_⟩
        exact (afterReply_le _).trans (max_le h.comment hin.comment)
      · cases hline
        refine h.insert rfl (le_refl _) ?_ ⟨hin.forward, ?_⟩
        · dsimp only
          split
          · rename_i hgt
            exact le_of_lt hgt
          · exact le_refl _
        · dsimp only
          split
          · exact le_refl _
          · rename_i hle
            exact not_lt.mp hle

theorem Bounded.processData {parseLine : Processor → DataLine → Parsed}
    (hstep : ∀ {p q line code}, Bounded p → parseLine p line = some (code, q) → Bounded q)
    {lines : List DataLine} (h : Bounded p) (hrun : processData parseLine lines p = some q) :
    Bounded q := by
  induction lines generalizing p with
  | nil =>
    cases hrun
    exact h
  | cons line lines ih =>
    rw [HotBlog.processData, List.foldlM_cons, Option.bind_eq_bind,
      Option.bind_eq_some_iff] at hrun
    obtain ⟨next, hline, hrest⟩ := hrun
    refine ih ?_ hrest
    split at hline
    · cases hline
      exact h
    · obtain ⟨⟨code, q⟩, hparse, rfl⟩ := Option.map_eq_some_iff.mp hline
      exact hstep h hparse

theorem bounded_process {types : List Int} {classified original forward comment : List DataLine}
    (h : process env types classified original forward comment = some p) : Bounded p := by
  simp only [process, Option.bind_eq_bind, Option.bind_eq_some_iff] at h
  obtain ⟨afterClassified, hclassified, afterOriginal, horiginal, afterForward, hforward,
    hcomment⟩ := h
  have h := (bounded_init types).processData Bounded.parseLineClassified hclassified
  have h := h.processData Bounded.parseLineOriginal horiginal
  have h := h.processData Bounded.parseLineForward hforward
  exact h.processData Bounded.parseLineComment hcomment

end

-- ---------------------------------------------------------------------------
-- Ratios of logarithms
-- ---------------------------------------------------------------------------

theorem LogRatio.WellDefined.max_ne_one {r : LogRatio} (h : r.WellDefined) : r.max ≠ 1 := by
  have htwo := h.two_le
  omega

theorem LogRatio.wellDefined {r : LogRatio} (hpos : 0 < r.count) (hle : r.count ≤ r.max)
    (hmax : r.max ≠ 1) : r.WellDefined := by
  have htwo : 2 ≤ r.max := by omega
  have hcount : (1 : ℝ) ≤ r.count := mod_cast hpos
  have hcm : (r.count : ℝ) ≤ r.max := mod_cast hle
  have hmaxR : (1 : ℝ) < r.max := mod_cast htwo
  have hdiv : 0 < Real.logb 10 r.max := Real.logb_pos (by norm_num) hmaxR
  have hnonneg : 0 ≤ Real.logb 10 r.count := Real.logb_nonneg (by norm_num) hcount
  have hmono : Real.logb 10 r.count ≤ Real.logb 10 r.max :=
    Real.logb_le_logb_of_le (by norm_num) (by linarith) hcm
  have hratio : Real.logb 10 r.count / Real.logb 10 r.max ≤ 1 := (div_le_one hdiv).mpr hmono
  refine ⟨hpos, hle, htwo, hdiv.ne', ?_, ?_⟩
  · rw [factor]
    linarith [div_nonneg hnonneg hdiv.le]
  · rw [factor]
    linarith

theorem BaseInfo.mem_logRatios {info : BaseInfo} {p : Processor} {r : LogRatio} :
    r ∈ info.logRatios p ↔ 0 < info.nContentLen ∧
      (0 < info.nForwardCount ∧ r = ⟨info.nForwardCount, p.nMaxForwardCount⟩ ∨
        0 < info.nValidCmtCount ∧ r = ⟨info.nValidCmtCount, p.nMaxValidCmtCount⟩) := by
  rw [logRatios]
  split
  · rename_i hlen
    exact iff_of_false List.not_mem_nil fun h => absurd h.1 (not_lt.mpr hlen)
  · rename_i hlen
    rw [and_iff_right (not_le.mp hlen), List.mem_append]
    refine or_congr ?_ ?_
    all_goals
      split
      · simp only [List.mem_singleton, true_and, *]
      · simp only [List.not_mem_nil, false_and, *]

/-- The divisions of `CalcWeight` are well defined if and only if those by the
logarithm of a largest count of 1 are not evaluated. -/
theorem calcWeight_wellDefined_iff (env : Env) (types : List Int)
    (classified original forward comment : List DataLine) (p : Processor)
    (h : process env types classified original forward comment = some p) :
    (∀ ratios, calcWeight p = some ratios → ∀ r ∈ ratios, r.WellDefined) ↔
      (0 < p.nMaxForwardCount → 0 < p.nMaxValidCmtCount → Divisible p) := by
  have hb := bounded_process h
  by_cases hguard : p.nMaxForwardCount ≤ 0 ∨ p.nMaxValidCmtCount ≤ 0
  · refine iff_of_true (fun ratios hr => ?_) fun hf hc => ?_
    · rw [calcWeight, if_pos hguard] at hr
      cases hr
    · rcases hguard with hg | hg
      · exact absurd hf (not_lt.mpr hg)
      · exact absurd hc (not_lt.mpr hg)
  · obtain ⟨hf, hc⟩ := not_or.mp hguard
    rw [calcWeight, if_neg hguard]
    simp only [Option.some.injEq, forall_eq', List.mem_flatMap, BaseInfo.mem_logRatios,
      not_le.mp hf, not_le.mp hc, forall_const]
    constructor
    · intro hall
      refine ⟨fun hmax e he hlen => ?_, fun hmax e he hlen => ?_⟩
      · by_contra hpos
        have hr := hall _ ⟨e, he, hlen, .inl ⟨not_le.mp hpos, rfl⟩⟩
        exact hr.max_ne_one hmax
      · by_contra hpos
        have hr := hall _ ⟨e, he, hlen, .inr ⟨not_le.mp hpos, rfl⟩⟩
        exact hr.max_ne_one hmax
    · rintro hdiv r ⟨e, he, hlen, hr⟩
      have hin := hb.within e.1 e.2 (OrdMap.mem_entries.mp he)
      rcases hr with ⟨hpos, rfl⟩ | ⟨hpos, rfl⟩
      · refine LogRatio.wellDefined hpos hin.forward fun hmax => ?_
        exact absurd (hdiv.forward hmax e he hlen) (not_le.mpr hpos)
      · refine LogRatio.wellDefined hpos hin.comment fun hmax => ?_
        exact absurd (hdiv.comment hmax e he hlen) (not_le.mpr hpos)

def jsonText (fields : List (String × String)) : List UInt8 :=
  text "\x7b" ++ (fields.flatMap fun field =>
    text "\"" ++ text field.1 ++ text "\":\"" ++ text field.2 ++ text "\",") ++
      text "\"end\":\"0\"\x7d"

def posts (counts : List (String × String)) : Option Processor :=
  let line (bytes : List UInt8) : DataLine := ⟨bytes, fun _ => 0, fun _ => 0⟩
  process ⟨2 ^ 64 - 1, fun _ => [], fun _ => none, fun _ => 0⟩ [0]
    (counts.map fun post => line (text "a`a`a`a`" ++ text post.1 ++ text "`a`a`a`a`0`0"))
    (counts.map fun post => line (jsonText [("flag", "0"), ("id", post.1), ("uid", "1"),
      ("filter", "0"), ("content", "a"), ("yc_source", "a")]))
    (counts.map fun post => line (text "a\ta\t1\t" ++ text post.2 ++ text "\t" ++ text post.1))
    (counts.map fun post => line (jsonText [("uid", "1"), ("mid", "1"), ("text", "a"),
      ("yc_mid", post.1)]))

theorem calcWeight_wellDefined_two : ∃ p, posts [("7", "5"), ("8", "3")] = some p ∧
    ((∀ ratios, calcWeight p = some ratios → ∀ r ∈ ratios, r.WellDefined) ↔
      (0 < p.nMaxForwardCount → 0 < p.nMaxValidCmtCount → Divisible p)) := by
  obtain ⟨p, hp⟩ := Option.isSome_iff_exists.mp
    (by decide +kernel : (posts [("7", "5"), ("8", "3")]).isSome = true)
  exact ⟨p, hp, calcWeight_wellDefined_iff _ _ _ _ _ _ p hp⟩

/-- One forward and one comment: both logarithms are divided by that of 1. -/
theorem single_count_divides_by_zero :
    ¬ ∀ (env : Env) (types : List Int) (classified original forward comment : List DataLine)
      (p : Processor), process env types classified original forward comment = some p →
      ∀ ratios, calcWeight p = some ratios → ∀ r ∈ ratios, r.WellDefined := by
  intro h
  have heval : (posts [("7", "1")]).bind calcWeight = some [⟨1, 1⟩, ⟨1, 1⟩] := by decide +kernel
  obtain ⟨p, hp, hratios⟩ := Option.bind_eq_some_iff.mp heval
  exact (h _ _ _ _ _ _ p hp _ hratios ⟨1, 1⟩ List.mem_cons_self).max_ne_one rfl

end TextMining.HotBlog
