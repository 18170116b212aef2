import TextMining.CJParser

/-!
# Names behind an @

The two overloads of `ExtractNickName`, on a C string and on a `std::string`,
over an arbitrary table of punctuation. A name is scanned by characters of one
or two bytes. The first overload goes on behind what it has scanned, the second
at the next `@` of all, which can be the second byte of a character.
-/

namespace TextMining.CMBTextTool

open StringTool
open CJParser (charAt)

/-- A text of C, without NUL. -/
structure NickText where
  text : List UInt8
  size : text.length < npos32
  nonzero : ∀ b ∈ text, b ≠ 0

def ispunct (c : UInt8) : Bool :=
  33 ≤ c && c ≤ 47 || 58 ≤ c && c ≤ 64 || 91 ≤ c && c ≤ 96 || 123 ≤ c && c ≤ 126

/-- An ASCII character that ends a name. -/
def endsName (c : UInt8) : Bool := c ≠ 45 && c ≠ 95 && (ispunct c || c = 32)

section
variable (m_setChPunct : List (List UInt8))

def IsPunction (ch : List UInt8) : Bool :=
  if m_setChPunct.length = 0 then false else m_setChPunct.contains ch

/-- How a scan ends: the last position, and whether Chinese or ASCII
punctuation ended it. -/
structure Scan where
  pos : Nat
  chn : Bool
  enp : Bool
  deriving DecidableEq

-- ---------------------------------------------------------------------------
-- The overload for a C string
-- ---------------------------------------------------------------------------

def strstrAt (atPos : List UInt8) : Option (List UInt8) :=
  match atPos.dropWhile (· ≠ 64) with
  | [] => none
  | c :: rest => some (c :: rest)

/-- The inner loop at `atPos`; `none` when it reads past the NUL. Each round
moves on, so 22 rounds are enough. -/
def scanName (atPos : List UInt8) : Nat → Nat → Option Scan
  | 0, _ => none
  | fuel + 1, pos =>
    if ¬pos ≤ 20 then some ⟨pos, false, false⟩
    else do
      let c ← charAt atPos pos
      if c = 0 then some ⟨pos, false, false⟩
      else if c ≤ 127 then
        if endsName c then some ⟨pos, false, true⟩ else scanName atPos fuel (pos + 1)
      else
        let c' ← charAt atPos (pos + 1)
        let tmp := cstr [c, c']
        if IsPunction m_setChPunct tmp then some ⟨pos + 1, true, false⟩
        else scanName atPos fuel (pos + 2)

/-- The names that were found: their number and how often each was found. -/
structure Names where
  atnum : Nat
  mapAt : OrdMap (List UInt8) Nat

def Names.start : Names := ⟨0, .empty⟩

def Names.add (n : Names) (user : List UInt8) : Names :=
  { atnum := n.atnum + 1
    mapAt :=
      match n.mapAt.lookup user with
      | some k => n.mapAt.insert user (k + 1)
      | none => n.mapAt.insert user 1 }

def Scan.len (scan : Scan) : Nat := if scan.chn then scan.pos - 1 else scan.pos

def nameEnds (atPos : List UInt8) (scan : Scan) : Option Bool :=
  if scan.chn || scan.enp then some true else (charAt atPos scan.pos).map (· == 0)

def extractLoop : Nat → Option (List UInt8) → Names → Option Names
  | 0, _, _ => none
  | _ + 1, none, names => some names
  | fuel + 1, some atPos, names =>
    let atPos := atPos.tail
    if charAt atPos 0 = some 0 then some names
    else do
      let scan ← scanName m_setChPunct atPos 22 0
      let ends ← nameEnds atPos scan
      let names := if ends then names.add (atPos.take scan.len) else names
      extractLoop fuel (strstrAt (atPos.drop scan.pos)) names

def ExtractNickName (text : List UInt8) : Option Names :=
  extractLoop m_setChPunct (text.length + 1) (strstrAt text) .start

-- ---------------------------------------------------------------------------
-- The overload for a std::string
-- ---------------------------------------------------------------------------

def scanNameStr (text : List UInt8) (atPos : Nat) : Nat → Nat → Option Scan
  | 0, _ => none
  | fuel + 1, pos =>
    if ¬pos ≤ 20 then some ⟨pos, false, false⟩
    else do
      let c ← charAt text (atPos + pos)
      if c = 0 then some ⟨pos, false, false⟩
      else if c ≤ 127 then
        if endsName c then some ⟨pos, false, true⟩ else scanNameStr text atPos fuel (pos + 1)
      else
        let tmp := cstr (← substr text (atPos + pos) 2)
        if IsPunction m_setChPunct tmp then some ⟨pos + 1, true, false⟩
        else scanNameStr text atPos fuel (pos + 2)

/-- The outer loop; it overwrites the `@` that it finds. -/
def extractStrLoop (bRemoveAt : Bool) :
    Nat → List UInt8 → Nat → Names → Option (Names × List UInt8)
  | 0, _, _, _ => none
  | fuel + 1, text, atPos, names =>
    if atPos = npos32 then some (names, text)
    else
      let text := text.set atPos 32
      let atPos := u32 (atPos + 1)
      if atPos = npos32 then some (names, text)
      else do
        let scan ← scanNameStr m_setChPunct text atPos 22 0
        if scan.chn || scan.enp || u32 (atPos + scan.pos) == text.length then
          let user ← substr text atPos scan.len
          let text := if bRemoveAt then replace text atPos scan.len [32] else text
          extractStrLoop bRemoveAt fuel text (u32 (find npos32 text 64 atPos)) (names.add user)
        else extractStrLoop bRemoveAt fuel text (u32 (find npos32 text 64 atPos)) names

def ExtractNickNameStr (text : List UInt8) (bRemoveAt : Bool) : Option (Names × List UInt8) :=
  extractStrLoop m_setChPunct bRemoveAt (text.length + 1) text (u32 (find npos32 text 64 0)) .start

-- ---------------------------------------------------------------------------
-- A scan
-- ---------------------------------------------------------------------------

def scanOf (t : List UInt8) : Option Scan := scanName m_setChPunct t 22 0

def nameOf (t : List UInt8) : Option (List UInt8) :=
  (scanOf m_setChPunct t).bind fun scan =>
    if scan.chn || scan.enp || scan.pos == t.length then some (t.take scan.len) else none

def Inside (t : List UInt8) : Prop :=
  ∃ scan, scanOf m_setChPunct t = some scan ∧ scan.pos ≤ t.length

section
variable {m_setChPunct} {t text : List UInt8} {fuel pos atPos : Nat} {scan : Scan}

theorem le_of_charAt {c : UInt8} (h : charAt t pos = some c) : pos ≤ t.length := by
  rw [charAt] at h
  split at h
  · omega
  · exact (List.getElem?_eq_some_iff.mp h).1.le

theorem charAt_eq_zero_iff (hz : ∀ b ∈ t, b ≠ 0) : charAt t pos = some 0 ↔ pos = t.length := by
  rw [charAt]
  split
  · rename_i h
    exact iff_of_true rfl h
  · rename_i h
    exact iff_of_false (fun hget => hz 0 (List.mem_of_getElem? hget) rfl) h

theorem charAt_isSome (h : pos ≤ t.length) : ∃ c, charAt t pos = some c := by
  rw [charAt]
  split
  · exact ⟨0, rfl⟩
  · exact ⟨_, List.getElem?_eq_getElem (by omega)⟩

theorem charAt_drop (h : atPos ≤ text.length) :
    charAt text (atPos + pos) = charAt (text.drop atPos) pos := by
  rw [charAt, charAt, List.length_drop, List.getElem?_drop]
  exact if_congr (by omega) rfl rfl

/-- A scan ends at most one byte behind the NUL, and at punctuation before
it. -/
theorem scanName_spec (h : scanName m_setChPunct t fuel pos = some scan)
    (hpos : pos ≤ t.length + 1) :
    scan.pos ≤ t.length + 1 ∧ (scan.chn = true ∨ scan.enp = true → scan.pos ≤ t.length) := by
  induction fuel generalizing pos with
  | zero => cases h
  | succ fuel ih =>
    rw [scanName] at h
    split at h
    · cases h
      exact ⟨hpos, by simp⟩
    · obtain ⟨c, hc, h⟩ := Option.bind_eq_some_iff.mp h
      have hle := le_of_charAt hc
      split at h
      · cases h
        exact ⟨hpos, by simp⟩
      · split at h
        · split at h
          · cases h
            exact ⟨hpos, fun _ => hle⟩
          · exact ih h (by omega)
        · obtain ⟨c', hc', h⟩ := Option.bind_eq_some_iff.mp h
          have hle' := le_of_charAt hc'
          simp only at h
          split at h
          · cases h
            exact ⟨Nat.le_succ_of_le hle', fun _ => hle'⟩
          · exact ih h (by omega)

theorem nameEnds_of_le (hz : ∀ b ∈ t, b ≠ 0) (h : scan.pos ≤ t.length) :
    nameEnds t scan = some (scan.chn || scan.enp || scan.pos == t.length) := by
  rw [nameEnds]
  split
  · rename_i hends
    rw [hends, Bool.true_or]
  · rename_i hends
    obtain ⟨c, hc⟩ := charAt_isSome h
    have hzero : charAt t scan.pos = some 0 ↔ scan.pos = t.length := charAt_eq_zero_iff hz
    rw [hc, Option.some_inj] at hzero
    rw [Bool.eq_false_iff.mpr hends, hc, Option.map_some, Bool.false_or]
    exact congrArg some (Bool.eq_iff_iff.mpr (by simpa using hzero))

theorem nameEnds_of_lt (h : scanName m_setChPunct t fuel 0 = some scan) (hlt : t.length < scan.pos) :
    nameEnds t scan = none := by
  have hspec := (scanName_spec h (Nat.zero_le _)).2
  have hends : ¬(scan.chn || scan.enp) = true := fun he =>
    absurd (hspec (Bool.or_eq_true_iff.mp he)) (Nat.not_le.mpr hlt)
  have hchar : charAt t scan.pos = none := by
    rw [charAt, if_neg hlt.ne', List.getElem?_eq_none hlt.le]
  rw [nameEnds, if_neg hends, hchar, Option.map_none]

theorem inside_of_ascii (h : ∀ b ∈ t.getLast?, b ≤ 127) : Inside m_setChPunct t := by
  suffices hscan : ∀ fuel pos, pos ≤ t.length → 22 ≤ pos + fuel → 0 < fuel →
      ∃ scan, scanName m_setChPunct t fuel pos = some scan ∧ scan.pos ≤ t.length from
    hscan 22 0 (Nat.zero_le _) le_rfl (by decide)
  intro fuel
  induction fuel with
  | zero => exact fun pos hpos hfuel hlt => absurd hlt (Nat.lt_irrefl 0)
  | succ fuel ih =>
    intro pos hpos hfuel _
    rw [scanName]
    split
    · exact ⟨_, rfl, hpos⟩
    · obtain ⟨c, hc⟩ := charAt_isSome hpos
      rw [hc, Option.bind_eq_bind, Option.bind_some]
      split
      · exact ⟨_, rfl, hpos⟩
      · rename_i hzero
        have hlt : pos < t.length := by
          refine lt_of_le_of_ne hpos fun he => hzero ?_
          rw [charAt, if_pos he] at hc
          exact (Option.some.inj hc).symm
        split
        · split
          · exact ⟨_, rfl, hpos⟩
          · exact ih _ hlt (by omega) (by omega)
        · rename_i hwide
          -- the last byte is no first byte of a character
          have hlt' : pos + 1 < t.length := by
            refine lt_of_le_of_ne hlt fun he => hwide (h c ?_)
            rw [charAt, if_neg hlt.ne] at hc
            rw [List.getLast?_eq_getElem?, ← he]
            exact hc
          obtain ⟨c', hc'⟩ := charAt_isSome hlt
          rw [hc', Option.bind_some]
          simp only
          split
          · exact ⟨_, rfl, hlt⟩
          · exact ih _ hlt' (by omega) (by omega)

theorem cstr_take_two {c c' : UInt8} (hlt : pos < t.length) (hc : charAt t pos = some c)
    (hc' : charAt t (pos + 1) = some c') (hzero : c ≠ 0) :
    cstr ((t.drop pos).take 2) = cstr [c, c'] := by
  have hget : t[pos] = c := by
    rw [charAt, if_neg hlt.ne, List.getElem?_eq_getElem hlt] at hc
    exact Option.some.inj hc
  rw [List.drop_eq_getElem_cons hlt, hget, List.take_succ_cons]
  rw [charAt] at hc'
  split at hc'
  · rename_i hend
    cases hc'
    rw [hend, List.drop_length]
    simp [cstr, hzero]
  · obtain ⟨hlt', hget'⟩ := List.getElem?_eq_some_iff.mp hc'
    rw [List.drop_eq_getElem_cons hlt', hget', List.take_succ_cons, List.take_zero]

/-- The second overload scans like the first. -/
theorem scanNameStr_eq (hz : ∀ b ∈ text.drop atPos, b ≠ 0) (hat : atPos ≤ text.length) :
    scanNameStr m_setChPunct text atPos fuel pos =
      scanName m_setChPunct (text.drop atPos) fuel pos := by
  induction fuel generalizing pos with
  | zero => rfl
  | succ fuel ih =>
    rw [scanNameStr, scanName, charAt_drop hat]
    split
    · rfl
    · cases hc : charAt (text.drop atPos) pos with
      | none => rfl
      | some c =>
        rw [Option.bind_eq_bind, Option.bind_some, Option.bind_eq_bind, Option.bind_some]
        split
        · rfl
        · rename_i hzero
          split
          · split
            · rfl
            · exact ih
          · have hlt : pos < (text.drop atPos).length := by
              refine lt_of_le_of_ne (le_of_charAt hc) fun he => hzero ?_
              rw [(charAt_eq_zero_iff hz).mpr he] at hc
              exact (Option.some.inj hc).symm
            obtain ⟨c', hc'⟩ := charAt_isSome (t := text.drop atPos) hlt
            have hsub : substr text (atPos + pos) 2 = some (((text.drop atPos).drop pos).take 2) := by
              rw [substr, if_pos (by rw [List.length_drop] at hlt; omega), List.drop_drop]
            rw [hsub, hc', Option.bind_some, Option.bind_some, cstr_take_two hlt hc hc' hzero]
            simp only [ih]

end

-- ---------------------------------------------------------------------------
-- The places of an @
-- ---------------------------------------------------------------------------

def allAts : List UInt8 → List (List UInt8)
  | [] => []
  | x :: t => if x = 64 then t :: allAts t else allAts t

theorem strstrAt_cases (t : List UInt8) : strstrAt t = none ∧ 64 ∉ t ∨
    ∃ a b, strstrAt t = some (64 :: b) ∧ t = a ++ 64 :: b ∧ 64 ∉ a := by
  induction t with
  | nil => exact .inl ⟨rfl, List.not_mem_nil⟩
  | cons x t ih =>
    by_cases hx : x = 64
    · subst hx
      exact .inr ⟨[], t, rfl, rfl, List.not_mem_nil⟩
    · have hskip : strstrAt (x :: t) = strstrAt t := by
        have hdrop : (x :: t).dropWhile (· ≠ 64) = t.dropWhile (· ≠ 64) :=
          List.dropWhile_cons_of_pos (by simpa using hx)
        simp only [strstrAt, hdrop]
      rw [hskip]
      rcases ih with ⟨hnone, ht⟩ | ⟨a, b, hsome, rfl, ha⟩
      · exact .inl ⟨hnone, by simp [Ne.symm hx, ht]⟩
      · exact .inr ⟨x :: a, b, hsome, rfl, by simp [Ne.symm hx, ha]⟩

/-- The texts behind every `@` that the first overload comes to. -/
def visited (rest : List UInt8) : List (List UInt8) :=
  match _h : strstrAt rest with
  | none => []
  | some atPos => atPos.tail ::
      visited (atPos.tail.drop (((scanOf m_setChPunct atPos.tail).map Scan.pos).getD 0))
termination_by rest.length
decreasing_by
  rcases strstrAt_cases rest with ⟨hnone, -⟩ | ⟨a, b, hsome, he, -⟩
  · cases hnone.symm.trans _h
  · cases hsome.symm.trans _h
    have hlen := congrArg List.length he
    simp only [List.length_append, List.length_cons, List.length_drop, List.tail_cons] at hlen ⊢
    omega

section
variable {m_setChPunct} {t rest a b : List UInt8}

theorem visited_of_none (h : strstrAt rest = none) : visited m_setChPunct rest = [] := by
  rw [visited]
  split
  · rfl
  · rename_i h'
    cases h.symm.trans h'

theorem visited_of_some (h : strstrAt rest = some (64 :: b)) : visited m_setChPunct rest =
    b :: visited m_setChPunct (b.drop (((scanOf m_setChPunct b).map Scan.pos).getD 0)) := by
  rw [visited]
  split
  · rename_i h'
    cases h.symm.trans h'
  · rename_i h'
    cases h.symm.trans h'
    rfl

theorem allAts_append (ha : 64 ∉ a) (b : List UInt8) : allAts (a ++ b) = allAts b := by
  induction a with
  | nil => rfl
  | cons x a ih =>
    rw [List.mem_cons, not_or] at ha
    rw [List.cons_append, allAts, if_neg (Ne.symm ha.1), ih ha.2]

theorem allAts_append_at (ha : 64 ∉ a) (b : List UInt8) : allAts (a ++ 64 :: b) = b :: allAts b := by
  rw [allAts_append ha, allAts, if_pos rfl]

theorem allAts_of_not_mem (h : 64 ∉ t) : allAts t = [] := by
  rw [← List.append_nil t, allAts_append h]
  rfl

theorem allAts_drop_sublist (t : List UInt8) (k : Nat) : (allAts (t.drop k)).Sublist (allAts t) := by
  induction t generalizing k with
  | nil => rw [List.drop_nil]
  | cons x t ih =>
    cases k with
    | zero => exact List.Sublist.refl _
    | succ k =>
      rw [List.drop_succ_cons, allAts]
      split
      · exact (ih k).cons t
      · exact ih k

theorem visited_sublist (rest : List UInt8) :
    (visited m_setChPunct rest).Sublist (allAts rest) := by
  induction hn : rest.length using Nat.strong_induction_on generalizing rest with
  | _ n ih =>
    rcases strstrAt_cases rest with ⟨hnone, -⟩ | ⟨a, b, hsome, rfl, ha⟩
    · rw [visited_of_none hnone]
      exact List.nil_sublist _
    · rw [visited_of_some hsome, allAts_append_at ha]
      refine ((ih _ ?_ _ rfl).trans (allAts_drop_sublist b _)).cons_cons b
      rw [← hn, List.length_append, List.length_cons, List.length_drop]
      omega

theorem length_lt_of_mem_allAts (h : b ∈ allAts t) : b.length < t.length := by
  induction t with
  | nil => cases h
  | cons x t ih =>
    rw [allAts] at h
    split at h
    · cases h with
      | head => exact Nat.lt_succ_self _
      | tail _ h => exact (ih h).trans (Nat.lt_succ_self _)
    · exact (ih h).trans (Nat.lt_succ_self _)

theorem nodup_allAts (t : List UInt8) : (allAts t).Nodup := by
  induction t with
  | nil => exact List.nodup_nil
  | cons x t ih =>
    rw [allAts]
    split
    · exact List.nodup_cons.mpr ⟨fun h => absurd (length_lt_of_mem_allAts h) (Nat.lt_irrefl _), ih⟩
    · exact ih

theorem nil_mem_allAts_iff (t : List UInt8) : [] ∈ allAts t ↔ t.getLast? = some 64 := by
  induction t with
  | nil => simp [allAts]
  | cons x t ih =>
    rw [allAts]
    cases t with
    | nil =>
      by_cases hx : x = 64
      · simp [hx]
      · simp [hx, allAts]
    | cons y t =>
      rw [List.getLast?_cons_cons, ← ih]
      split <;> simp

theorem length_filterMap_eq_iff {α β : Type*} (f : α → Option β) {l m : List α}
    (h : l.Sublist m) (hm : m.Nodup) :
    (l.filterMap f).length = (m.filterMap f).length ↔ ∀ x ∈ m, x ∉ l → f x = none := by
  induction h with
  | slnil => simp
  | @cons l m x h ih =>
    rw [List.nodup_cons] at hm
    have hx : x ∉ l := fun hx => hm.1 (h.subset hx)
    rw [List.forall_mem_cons, ← ih hm.2]
    cases hf : f x with
    | none =>
      rw [List.filterMap_cons_none hf]
      simp
    | some y =>
      have hle := (h.filterMap f).length_le
      rw [List.filterMap_cons_some hf, List.length_cons]
      exact iff_of_false (by omega) fun hall => by cases hall.1 hx
  | @cons_cons l m x h ih =>
    rw [List.nodup_cons] at hm
    have hrest : (∀ y ∈ m, y ∉ x :: l → f y = none) ↔ ∀ y ∈ m, y ∉ l → f y = none := by
      refine forall₂_congr fun y hy => ?_
      have hne : y ≠ x := fun he => hm.1 (he ▸ hy)
      simp [hne]
    rw [List.forall_mem_cons, hrest, ← ih hm.2, List.filterMap_cons, List.filterMap_cons]
    cases f x with
    | none => simp
    | some y => simp

end

-- ---------------------------------------------------------------------------
-- The outer loops
-- ---------------------------------------------------------------------------

/-- The names that the first overload counts. It stops at an `@` at the end. -/
def visitedNames (rest : List UInt8) : List (List UInt8) :=
  ((visited m_setChPunct rest).filter (· ≠ [])).filterMap (nameOf m_setChPunct)

section
variable {m_setChPunct} {text rest : List UInt8} {fuel p : Nat} {names r : Names}

theorem extractLoop_iff (hz : ∀ b ∈ rest, b ≠ 0) (hfuel : rest.length < fuel) :
    extractLoop m_setChPunct fuel (strstrAt rest) names = some r ↔
      (∀ t ∈ visited m_setChPunct rest, Inside m_setChPunct t) ∧
        r = (visitedNames m_setChPunct rest).foldl Names.add names := by
  induction fuel generalizing rest names with
  | zero => exact absurd hfuel (Nat.not_lt_zero _)
  | succ fuel ih =>
    rcases strstrAt_cases rest with ⟨hnone, -⟩ | ⟨a, t, hsome, he, -⟩
    · rw [hnone, extractLoop, visitedNames, visited_of_none hnone]
      simp [eq_comm]
    · have hzt : ∀ b ∈ t, b ≠ 0 := fun b hb => hz b (by simp [he, hb])
      have hlen := congrArg List.length he
      rw [List.length_append, List.length_cons] at hlen
      rw [hsome, extractLoop, visitedNames, visited_of_some hsome]
      by_cases hnil : t = []
      · subst hnil
        have hin : Inside m_setChPunct [] := inside_of_ascii (by simp)
        have hstop : visited m_setChPunct
            (([] : List UInt8).drop (((scanOf m_setChPunct []).map Scan.pos).getD 0)) = [] := by
          rw [List.drop_nil, visited_of_none rfl]
        rw [List.tail_cons, if_pos (show charAt [] 0 = some 0 from rfl), hstop]
        simp [hin, eq_comm]
      · have hchar : charAt t 0 ≠ some 0 := fun h =>
          hnil (List.length_eq_zero_iff.mp ((charAt_eq_zero_iff hzt).mp h).symm)
        rw [List.tail_cons, if_neg hchar, List.filter_cons_of_pos (by simpa using hnil),
          List.forall_mem_cons]
        cases hscan : scanName m_setChPunct t 22 0 with
        | none =>
          rw [Option.bind_eq_bind, Option.bind_none]
          refine iff_of_false (by simp) ?_
          rintro ⟨⟨⟨scan, h, -⟩, -⟩, -⟩
          cases hscan.symm.trans h
        | some scan =>
          have hscan' : scanOf m_setChPunct t = some scan := hscan
          have hinside : Inside m_setChPunct t ↔ scan.pos ≤ t.length :=
            ⟨fun ⟨scan', h, hle⟩ => Option.some.inj (hscan.symm.trans h) ▸ hle,
              fun hle => ⟨scan, hscan, hle⟩⟩
          rw [Option.bind_eq_bind, Option.bind_some, hinside, hscan', Option.map_some,
            Option.getD_some]
          rcases Nat.lt_or_ge t.length scan.pos with hlt | hle
          · rw [nameEnds_of_lt hscan hlt, Option.bind_eq_bind, Option.bind_none]
            exact iff_of_false (by simp) fun h => absurd h.1.1 (Nat.not_le.mpr hlt)
          · have hname : nameOf m_setChPunct t =
                if (scan.chn || scan.enp || scan.pos == t.length) = true then
                  some (t.take scan.len) else none := by
              rw [nameOf, hscan', Option.bind_some]
            rw [nameEnds_of_le hzt hle, Option.bind_eq_bind, Option.bind_some, and_iff_right hle,
              ih (fun b hb => hzt b (List.mem_of_mem_drop hb)) (by rw [List.length_drop]; omega),
              visitedNames, List.filterMap_cons, hname]
            split <;> rfl

theorem find_at_cases (hsize : text.length < npos32) (p : Nat) :
    u32 (find npos32 text 64 p) = npos32 ∧ 64 ∉ text.drop p ∨
      ∃ a t, text.drop p = a ++ 64 :: t ∧ 64 ∉ a ∧ u32 (find npos32 text 64 p) = p + a.length := by
  rw [find]
  cases hfind : (text.drop p).findIdx? (· == 64) with
  | none =>
    refine .inl ⟨?_, fun hm => ?_⟩
    · simp only [u32]
      rfl
    · exact absurd (List.findIdx?_eq_none_iff.mp hfind 64 hm) (by decide)
  | some k =>
    obtain ⟨a, t, he, hk, ha⟩ := split_of_findIdx? hfind
    have hlen := congrArg List.length he
    rw [List.length_drop, List.length_append, List.length_cons] at hlen
    have hnpos : npos32 = 2 ^ 32 - 1 := rfl
    refine .inr ⟨a, t, he, ha, ?_⟩
    simp only [u32]
    omega

theorem extractStrLoop_iff (text : List UInt8) (p : Nat) (names : Names)
    (hsize : text.length < npos32) (hz : ∀ b ∈ text.drop p, b ≠ 0)
    (hfuel : text.length - p < fuel) :
    (extractStrLoop m_setChPunct false fuel text (u32 (find npos32 text 64 p)) names).map Prod.fst =
        some r ↔
      (∀ t ∈ allAts (text.drop p), (scanOf m_setChPunct t).isSome) ∧
        r = ((allAts (text.drop p)).filterMap (nameOf m_setChPunct)).foldl Names.add names := by
  induction fuel generalizing text p names with
  | zero => exact absurd hfuel (Nat.not_lt_zero _)
  | succ fuel ih =>
    rcases find_at_cases hsize p with ⟨hnone, hat⟩ | ⟨a, t, he, ha, hfind⟩
    · rw [hnone, extractStrLoop, if_pos rfl, allAts_of_not_mem hat, Option.map_some,
        Option.some_inj]
      exact ⟨fun h => ⟨fun b hb => absurd hb List.not_mem_nil, h.symm⟩, fun h => h.2.symm⟩
    · have hnpos : npos32 = 2 ^ 32 - 1 := rfl
      have hlen := congrArg List.length he
      rw [List.length_drop, List.length_append, List.length_cons] at hlen
      have hne : p + a.length ≠ npos32 := by omega
      have hnext : u32 (p + a.length + 1) = p + a.length + 1 := by
        simp only [u32]
        omega
      have hne' : p + a.length + 1 ≠ npos32 := by omega
      have hdrop : (text.set (p + a.length) 32).drop (p + a.length + 1) = t := by
        have htail : text.drop (p + a.length) = 64 :: t := by
          rw [← List.drop_drop, he, List.drop_left]
        rw [List.drop_set_of_lt (Nat.lt_add_one _), ← List.drop_drop, htail]
        rfl
      have hzt : ∀ b ∈ t, b ≠ 0 := fun b hb => hz b (by simp [he, hb])
      have hle : p + a.length + 1 ≤ (text.set (p + a.length) 32).length := by
        rw [List.length_set]
        omega
      have hscan : scanNameStr m_setChPunct (text.set (p + a.length) 32) (p + a.length + 1) 22 0 =
          scanOf m_setChPunct t := by
        rw [scanNameStr_eq (hdrop.symm ▸ hzt) hle, hdrop]
        rfl
      have hrest := fun names => ih (text.set (p + a.length) 32) (p + a.length + 1) names
        (by rwa [List.length_set]) (hdrop.symm ▸ hzt) (by rw [List.length_set]; omega)
      simp only [hdrop] at hrest
      rw [hfind, extractStrLoop, if_neg hne]
      simp only [hnext, if_neg hne', hscan, he, allAts_append_at ha, List.forall_mem_cons,
        List.filterMap_cons]
      cases hs : scanOf m_setChPunct t with
      | none => simp
      | some scan =>
        have hspec := (scanName_spec hs (Nat.zero_le _)).1
        have hend : (u32 (p + a.length + 1 + scan.pos) == (text.set (p + a.length) 32).length) =
            (scan.pos == t.length) := by
          have hpos : u32 (p + a.length + 1 + scan.pos) = p + a.length + 1 + scan.pos := by
            simp only [u32]
            omega
          rw [hpos, List.length_set]
          exact Bool.eq_iff_iff.mpr (by simp only [beq_iff_eq]; omega)
        have huser : substr (text.set (p + a.length) 32) (p + a.length + 1) scan.len =
            some (t.take scan.len) := by
          rw [substr, if_pos hle, hdrop]
        have hname : nameOf m_setChPunct t =
            if (scan.chn || scan.enp || scan.pos == t.length) = true then
              some (t.take scan.len) else none := by
          rw [nameOf, hs, Option.bind_some]
        rw [hname]
        simp only [Option.bind_eq_bind, Option.bind_some, hend, huser, Option.isSome_some, true_and,
          Bool.false_eq_true, if_false]
        split
        · exact hrest _
        · exact hrest _

end

-- ---------------------------------------------------------------------------
-- The overloads agree
-- ---------------------------------------------------------------------------

def OverloadsAgree (s : NickText) : Prop :=
  ∃ names text, ExtractNickName m_setChPunct s.text = some names ∧
    ExtractNickNameStr m_setChPunct s.text false = some (names, text)

/-- The text does not end with an `@`, no scan leaves it, and no name is counted
behind an `@` that the first overload steps over. -/
structure Regular (t : List UInt8) : Prop where
  last : t.getLast? ≠ some 64
  inside : ∀ b ∈ visited m_setChPunct t, Inside m_setChPunct b
  scans : ∀ b ∈ allAts t, (scanOf m_setChPunct b).isSome
  skipped : ∀ b ∈ allAts t, b ∉ visited m_setChPunct t → nameOf m_setChPunct b = none

section
variable {m_setChPunct}

theorem atnum_foldl_add (users : List (List UInt8)) (names : Names) :
    (users.foldl Names.add names).atnum = names.atnum + users.length := by
  induction users generalizing names with
  | nil => rfl
  | cons user users ih =>
    have hadd : (names.add user).atnum = names.atnum + 1 := rfl
    rw [List.foldl_cons, ih, hadd, List.length_cons]
    omega

theorem names_eq_iff (t : List UInt8) :
    (visitedNames m_setChPunct t).foldl Names.add .start =
        ((allAts t).filterMap (nameOf m_setChPunct)).foldl Names.add .start ↔
      t.getLast? ≠ some 64 ∧
        ∀ b ∈ allAts t, b ∉ visited m_setChPunct t → nameOf m_setChPunct b = none := by
  have hsub : ((visited m_setChPunct t).filter (· ≠ [])).Sublist (allAts t) :=
    List.filter_sublist.trans (visited_sublist t)
  have hcount := length_filterMap_eq_iff (nameOf m_setChPunct) hsub (nodup_allAts t)
  have heq : (visitedNames m_setChPunct t).foldl Names.add .start =
      ((allAts t).filterMap (nameOf m_setChPunct)).foldl Names.add .start ↔
      (visitedNames m_setChPunct t).length =
        ((allAts t).filterMap (nameOf m_setChPunct)).length := by
    constructor
    · intro h
      have hnum := congrArg Names.atnum h
      rw [atnum_foldl_add, atnum_foldl_add] at hnum
      exact Nat.add_left_cancel hnum
    · intro h
      rw [visitedNames, (hsub.filterMap _).eq_of_length h]
  rw [heq, visitedNames, hcount, ne_eq, ← not_congr (nil_mem_allAts_iff t)]
  have hempty : nameOf m_setChPunct [] = some [] := rfl
  constructor
  · intro h
    refine ⟨fun hnil => ?_, fun b hb hnew => h b hb fun hm => hnew (List.mem_of_mem_filter hm)⟩
    have hnone := h [] hnil (by simp)
    rw [hempty] at hnone
    cases hnone
  · rintro ⟨hnil, h⟩ b hb hnew
    refine h b hb fun hm => hnew (List.mem_filter.mpr ⟨hm, decide_eq_true fun he => ?_⟩)
    exact hnil (he ▸ hb)

end

theorem overloadsAgree_iff (s : NickText) :
    OverloadsAgree m_setChPunct s ↔ Regular m_setChPunct s.text := by
  have hfirst : ∀ r, ExtractNickName m_setChPunct s.text = some r ↔
      (∀ t ∈ visited m_setChPunct s.text, Inside m_setChPunct t) ∧
        r = (visitedNames m_setChPunct s.text).foldl Names.add .start :=
    fun r => extractLoop_iff s.nonzero (Nat.lt_succ_self _)
  have hsecond : ∀ r, (ExtractNickNameStr m_setChPunct s.text false).map Prod.fst = some r ↔
      (∀ t ∈ allAts s.text, (scanOf m_setChPunct t).isSome) ∧
        r = ((allAts s.text).filterMap (nameOf m_setChPunct)).foldl Names.add .start :=
    fun r => extractStrLoop_iff s.text 0 .start s.size s.nonzero (Nat.lt_succ_self _)
  constructor
  · rintro ⟨names, text, hf, hs⟩
    obtain ⟨hvisited, hnames⟩ := (hfirst names).mp hf
    obtain ⟨hall, hnames'⟩ := (hsecond names).mp (by rw [hs, Option.map_some])
    obtain ⟨hlast, hskipped⟩ := (names_eq_iff s.text).mp (hnames.symm.trans hnames')
    exact ⟨hlast, hvisited, hall, hskipped⟩
  · rintro ⟨hlast, hvisited, hall, hskipped⟩
    have hnames := (names_eq_iff s.text).mpr ⟨hlast, hskipped⟩
    have hf := (hfirst _).mpr ⟨hvisited, rfl⟩
    obtain ⟨⟨names, text⟩, hs, he⟩ := Option.map_eq_some_iff.mp ((hsecond _).mpr ⟨hall, hnames⟩)
    cases he
    exact ⟨_, text, hf, hs⟩

end

/-- At the end of a text the second overload counts an empty name. -/
theorem not_overloadsAgree_at :
    ¬OverloadsAgree [] ⟨text "@", by decide, List.forall_mem_singleton.mpr (by decide)⟩ := by
  rintro ⟨names, rest, hf, hs⟩
  have hfirst : ExtractNickName [] (text "@") = some .start := rfl
  have hsecond : (ExtractNickNameStr [] (text "@") false).map (fun r => r.1.atnum) = some 1 := by
    decide +kernel
  cases hfirst.symm.trans hf
  rw [hs] at hsecond
  cases hsecond

end TextMining.CMBTextTool
