import TextMining.ConfigInfo.Model
import TextMining.Lib.Inclusion

/-!
# Included configuration files

Loading returns with the recursion counter where it was, and has processed the
lines of the expanded file. What a line includes is read before the text that
stands in front of it.
-/

namespace TextMining.CConfigInfo

open StringTool (find findStr findStr_eq substr u32 trim)
open LibWb (SpliteByChar splitLoop_eq_splitOn npos64 u32_npos64)
open Inclusion (inPlace includeFirst expand expand_file expand_missing)

-- ---------------------------------------------------------------------------
-- Lines
-- ---------------------------------------------------------------------------

def ownText (line : List UInt8) : List UInt8 := line.takeWhile (· ≠ 35)

def includeOf (line : List UInt8) : Option (List UInt8) :=
  let comment := line.dropWhile (· ≠ 35)
  if text "#include" <+: comment then some (cstr (trim (comment.drop 8))) else none

def assign (cSplitChar : UInt8) (m : OrdMap (List UInt8) (List UInt8)) (line : List UInt8) :
    OrdMap (List UInt8) (List UInt8) :=
  match line.splitOn cSplitChar with
  | key :: value :: _ => m.insert (trim key) (trim value)
  | _ => m

section
variable {line tmp rest : List UInt8} {cSplitChar : UInt8} {s : CConfigInfo}

theorem decide_ne (h : 35 ∉ line) : ∀ b ∈ line, decide (b ≠ 35) = true := fun b hb => by
  simpa using fun hc : b = 35 => h (hc ▸ hb)

theorem findIdx?_of_not_mem (h : 35 ∉ line) : line.findIdx? (· == 35) = none := by
  rw [List.findIdx?_eq_none_iff]
  intro b hb
  simpa using decide_ne h b hb

theorem ownText_of_not_mem (h : 35 ∉ line) : ownText line = line :=
  List.takeWhile_eq_self_iff.mpr (decide_ne h)

theorem ownText_comment (h : 35 ∉ tmp) : ownText (tmp ++ 35 :: rest) = tmp := by
  rw [ownText, List.takeWhile_append_of_pos (decide_ne h), List.takeWhile_cons_of_neg (by decide),
    List.append_nil]

theorem not_mem_ownText (line : List UInt8) : 35 ∉ ownText line := fun h => by
  simpa using List.mem_takeWhile_imp h

theorem includeOf_of_not_mem (h : 35 ∉ line) : includeOf line = none := by
  rw [includeOf, List.dropWhile_eq_nil_iff.mpr (decide_ne h)]
  exact if_neg (by decide)

theorem includeOf_comment (h : 35 ∉ tmp) :
    includeOf (tmp ++ 35 :: rest) =
      if text "include" <+: rest then some (cstr (trim (rest.drop 7))) else none := by
  have hdrop : (tmp ++ 35 :: rest).dropWhile (· ≠ 35) = 35 :: rest := by
    rw [List.dropWhile_append_of_pos (decide_ne h)]
    exact List.dropWhile_cons_of_neg (by decide)
  have htext : text "#include" = 35 :: text "include" := by decide
  simp only [includeOf, hdrop, htext, List.cons_prefix_cons, true_and, List.drop_succ_cons]

theorem find_of_not_mem (h : 35 ∉ line) : find npos64 line 35 0 = npos64 := by
  rw [find, List.drop_zero, findIdx?_of_not_mem h]

theorem find_comment (h : 35 ∉ tmp) : find npos64 (tmp ++ 35 :: rest) 35 0 = tmp.length := by
  have hsome : (tmp ++ 35 :: rest).findIdx? (· == 35) = some tmp.length := by
    rw [List.findIdx?_append, findIdx?_of_not_mem h, List.findIdx?_cons, if_pos (by decide),
      Option.map_some, Option.none_or, Nat.zero_add]
  rw [find, List.drop_zero, hsome]
  exact Nat.zero_add _

theorem findStr_include (hlen : (tmp ++ 35 :: rest).length < 2 ^ 32 - 1) :
    u32 (findStr npos64 (tmp ++ 35 :: rest) (text "include") tmp.length) = tmp.length + 1 ↔
      text "include" <+: rest := by
  have hne : text "include" ≠ [] := by decide
  have hword : text "include" = 105 :: text "nclude" := by decide
  rw [List.length_append, List.length_cons] at hlen
  rw [findStr_eq npos64 hne, List.drop_left]
  cases hcut : Occurrence.cut (text "include") (35 :: rest) with
  | none =>
    rw [Option.map_none, Option.getD_none, u32_npos64]
    have hinfix := Occurrence.cut_eq_none.mp hcut
    refine iff_of_false (by omega) fun hpre => hinfix ?_
    exact hpre.isInfix.trans (List.suffix_cons 35 rest).isInfix
  | some r =>
    obtain ⟨a, b⟩ := r
    obtain ⟨htext, hfirst⟩ := Occurrence.cut_eq_some hcut
    have hsize := Occurrence.length_of_cut hcut
    rw [List.length_cons] at hsize
    have hpos : u32 (tmp.length + a.length) = tmp.length + a.length := u32_of_lt (by omega)
    rw [Option.map_some, Option.getD_some, hpos, Nat.add_left_cancel_iff]
    cases a with
    | nil =>
      rw [List.nil_append, hword, List.cons_append, List.cons.injEq] at htext
      exact absurd htext.1 (by decide)
    | cons x a =>
      rw [List.append_assoc, List.cons_append, List.cons.injEq] at htext
      rw [List.length_cons, Nat.succ_inj]
      constructor
      · intro ha
        rw [htext.2, List.eq_nil_of_length_eq_zero ha]
        exact List.prefix_append _ _
      · intro hpre
        by_contra ha
        refine hfirst 1 ?_ hpre
        rw [List.length_cons]
        omega

theorem addLine_eq (hlen : line.length < 2 ^ 32 - 1) :
    addLine cSplitChar s line =
      some { s with mapConfig := assign cSplitChar s.mapConfig line } := by
  cases line with
  | nil => rfl
  | cons b line =>
    have hsplit : SpliteByChar npos64 (b :: line) cSplitChar =
        some ((b :: line).splitOn cSplitChar) := by
      rw [SpliteByChar, splitLoop_eq_splitOn hlen (Nat.succ_pos _) (by omega)]
      rfl
    rw [addLine, if_neg (by rw [List.length_cons]; exact Nat.succ_ne_zero _), hsplit, assign]
    cases (b :: line).splitOn cSplitChar with
    | nil => rfl
    | cons key row =>
      cases row with
      | nil => rfl
      | cons value row => rfl

theorem substr_include (hlen : (tmp ++ 35 :: rest).length < 2 ^ 32 - 1)
    (hinc : text "include" <+: rest) :
    substr (tmp ++ 35 :: rest) (u32 (tmp.length + 1 + 7))
        (sizeDiff (sizeDiff (tmp ++ 35 :: rest).length (tmp.length + 1)) 7) =
      some (rest.drop 7) := by
  have hword : 7 ≤ rest.length := hinc.length_le
  have hnpos : npos64 = 2 ^ 64 - 1 := rfl
  have hsize : (tmp ++ 35 :: rest).length = tmp.length + 1 + rest.length := by
    rw [List.length_append, List.length_cons]
    omega
  have hdrop : (tmp ++ 35 :: rest).drop (tmp.length + 1 + 7) = rest.drop 7 := by
    rw [Nat.add_assoc, ← List.drop_drop, List.drop_left]
    rfl
  have hcount : sizeDiff (sizeDiff (tmp ++ 35 :: rest).length (tmp.length + 1)) 7 =
      rest.length - 7 := by
    rw [hsize, sizeDiff_of_le (Nat.le_add_right _ _) (by omega), Nat.add_sub_cancel_left,
      sizeDiff_of_le hword (by omega)]
  rw [u32_of_lt (by omega), substr, if_pos (by omega), hdrop, hcount,
    List.take_of_length_le (List.length_drop ..).le]

theorem loadLine_comment (load : List UInt8 → CConfigInfo → Option CConfigInfo) (htmp : 35 ∉ tmp)
    (hlen : (tmp ++ 35 :: rest).length < 2 ^ 32 - 1) :
    loadLine load cSplitChar s (tmp ++ 35 :: rest) =
      ((includeOf (tmp ++ 35 :: rest)).elim (some s) fun f =>
        if s.nRecurseCount > 10 then some s else load f s).map fun s =>
          { s with mapConfig := assign cSplitChar s.mapConfig tmp } := by
  have hsize : tmp.length + 1 < 2 ^ 32 ∧ tmp.length < 2 ^ 32 - 1 := by
    rw [List.length_append, List.length_cons] at hlen
    omega
  have hpos : u32 (find npos64 (tmp ++ 35 :: rest) 35 0) = tmp.length := by
    rw [find_comment htmp, u32_of_lt (by omega)]
  have hne : tmp.length ≠ npos64 := by
    rw [← hpos]
    exact u32_ne_npos64 _
  have hown : ∀ s : CConfigInfo, ((substr (tmp ++ 35 :: rest) 0 tmp.length).bind fun line =>
      addLine cSplitChar s line) =
        some { s with mapConfig := assign cSplitChar s.mapConfig tmp } := by
    intro s
    rw [substr, if_pos (Nat.zero_le _), List.drop_zero, List.take_left, Option.bind_some,
      addLine_eq hsize.2]
  have hcond := findStr_include hlen
  simp only [loadLine, hpos, if_pos hne, u32_of_lt hsize.1, and_iff_right (u32_ne_npos64 _),
    hcond, includeOf_comment htmp, Option.bind_eq_bind, hown]
  split
  · rename_i hinc
    rw [hcond.mpr hinc, substr_include hlen hinc, Option.bind_some, Option.elim_some]
    split
    · rfl
    · rw [Option.map_eq_bind]
      rfl
  · rfl

/-- Without a `#` the position does not fit an `unsigned int`, and is no `npos`;
the search for `include` behind the line then fails. -/
theorem loadLine_plain (load : List UInt8 → CConfigInfo → Option CConfigInfo) (hin : 35 ∉ line)
    (hlen : line.length < 2 ^ 32 - 1) :
    loadLine load cSplitChar s line =
      some { s with mapConfig := assign cSplitChar s.mapConfig line } := by
  have hpos : u32 (find npos64 line 35 0) = 2 ^ 32 - 1 := by
    rw [find_of_not_mem hin, u32_npos64]
  have hpos1 : u32 (findStr npos64 line (text "include") (2 ^ 32 - 1)) = 2 ^ 32 - 1 := by
    rw [findStr_eq npos64 (by decide), List.drop_eq_nil_of_le hlen.le]
    exact u32_npos64
  have hwrap : ¬(2 ^ 32 - 1 = u32 (2 ^ 32 - 1 + 1)) := by
    simp only [u32]
    omega
  have hne : 2 ^ 32 - 1 ≠ npos64 := by
    rw [npos64]
    omega
  have hsub : substr line 0 (2 ^ 32 - 1) = some line := by
    rw [substr, if_pos (Nat.zero_le _), List.drop_zero, List.take_of_length_le hlen.le]
  simp only [loadLine, hpos, hpos1, if_pos hne, hwrap, and_false, if_false, hsub,
    Option.bind_eq_bind, Option.bind_some, addLine_eq hlen]

theorem loadLine_eq (load : List UInt8 → CConfigInfo → Option CConfigInfo)
    (hlen : line.length < 2 ^ 32 - 1) :
    loadLine load cSplitChar s line =
      ((includeOf line).elim (some s) fun f =>
        if s.nRecurseCount > 10 then some s else load f s).map fun s =>
          { s with mapConfig := assign cSplitChar s.mapConfig (ownText line) } := by
  by_cases hin : (35 : UInt8) ∈ line
  · obtain ⟨tmp, rest, rfl, htmp⟩ := List.eq_append_cons_of_mem hin
    rw [loadLine_comment load htmp hlen, ownText_comment htmp]
  · rw [loadLine_plain load hin hlen, includeOf_of_not_mem hin, ownText_of_not_mem hin]
    rfl

end

-- ---------------------------------------------------------------------------
-- Files
-- ---------------------------------------------------------------------------

def files (fs : FileSystem) (name : List UInt8) : Option (List (Option (List UInt8) × List UInt8)) :=
  (fs name).map fun bytes => (bytes.splitOn 10).map fun line => (includeOf line, ownText line)

def process (cSplitChar : UInt8) (lines : List (List UInt8)) : OrdMap (List UInt8) (List UInt8) :=
  lines.foldl (assign cSplitChar) .empty

def LinesBelow (n : Nat) (fs : FileSystem) : Prop :=
  ∀ name bytes, fs name = some bytes → ∀ line ∈ bytes.splitOn 10, line.length < n

/-- `room` more files may be opened. -/
structure Balanced (room : Nat) (s : CConfigInfo) : Prop where
  count : s.nRecurseCount = s.openFiles
  room : s.openFiles + room = 11
  bound : s.maxOpenFiles ≤ 11

def Loads (s : CConfigInfo) (m : OrdMap (List UInt8) (List UInt8)) (r : Option CConfigInfo) : Prop :=
  ∃ most ≤ 11, r = some { s with mapConfig := m, maxOpenFiles := most }

section
variable {fs : FileSystem} {cSplitChar : UInt8} {s : CConfigInfo} {room fuel : Nat}
  {load : List UInt8 → CConfigInfo → Option CConfigInfo} {line : List UInt8}
  {lines : List (List UInt8)}

/-- What the recursive calls do while `room` more files may be opened. -/
def LoadsExpanded (fs : FileSystem) (cSplitChar : UInt8) (room : Nat)
    (load : List UInt8 → CConfigInfo → Option CConfigInfo) : Prop :=
  ∀ (f : List UInt8) (s : CConfigInfo), Balanced room s → 0 < room →
    Loads s ((expand (files fs) includeFirst room f).foldl (assign cSplitChar) s.mapConfig) (load f s)

def expandLine (fs : FileSystem) (room : Nat) (line : List UInt8) : List (List UInt8) :=
  includeFirst ((includeOf line).elim [] (expand (files fs) includeFirst room)) (ownText line)

theorem loadLine_loads (hload : LoadsExpanded fs cSplitChar room load) (hs : Balanced room s)
    (hlen : line.length < 2 ^ 32 - 1) :
    Loads s ((expandLine fs room line).foldl (assign cSplitChar) s.mapConfig)
      (loadLine load cSplitChar s line) := by
  rw [loadLine_eq load hlen, expandLine, includeFirst, List.foldl_append, List.foldl_cons,
    List.foldl_nil]
  cases includeOf line with
  | none => exact ⟨s.maxOpenFiles, hs.bound, rfl⟩
  | some f =>
    have hcount := hs.count
    have hroom := hs.room
    rw [Option.elim_some, Option.elim_some]
    cases room with
    | zero =>
      rw [if_pos (by omega)]
      exact ⟨s.maxOpenFiles, hs.bound, rfl⟩
    | succ room =>
      obtain ⟨most, hmost, hl⟩ := hload f s hs (Nat.succ_pos room)
      rw [if_neg (by omega), hl]
      exact ⟨most, hmost, rfl⟩

theorem foldlM_loadLine (hload : LoadsExpanded fs cSplitChar room load) (hs : Balanced room s)
    (hlen : ∀ line ∈ lines, line.length < 2 ^ 32 - 1) :
    Loads s ((lines.flatMap (expandLine fs room)).foldl (assign cSplitChar) s.mapConfig)
      (lines.foldlM (loadLine load cSplitChar) s) := by
  induction lines generalizing s with
  | nil => exact ⟨s.maxOpenFiles, hs.bound, rfl⟩
  | cons line lines ih =>
    obtain ⟨most, hmost, hl⟩ := loadLine_loads hload hs (hlen line List.mem_cons_self)
    rw [List.foldlM_cons, hl, List.flatMap_cons, List.foldl_append]
    obtain ⟨last, hlast, hrest⟩ := ih
      (s := { s with
        mapConfig := (expandLine fs room line).foldl (assign cSplitChar) s.mapConfig
        maxOpenFiles := most })
      ⟨hs.count, hs.room, hmost⟩ fun l hl => hlen l (List.mem_cons_of_mem line hl)
    exact ⟨last, hlast, hrest⟩

/-- A call with room for its file loads the expanded file. -/
theorem loadConfig_loads (hfs : LinesBelow (2 ^ 32 - 1) fs) (hfuel : room ≤ fuel) :
    LoadsExpanded fs cSplitChar room (loadConfig fs cSplitChar fuel) := by
  induction room generalizing fuel with
  | zero => exact fun _ _ _ h0 => absurd h0 (Nat.lt_irrefl 0)
  | succ room ih =>
    intro name s hs _
    obtain ⟨fuel, rfl⟩ := Nat.exists_eq_add_of_le' hfuel
    rw [← Nat.add_assoc fuel]
    unfold loadConfig
    cases hf : fs name with
    | none =>
      rw [expand_missing _ (by rw [files, hf]; rfl)]
      exact ⟨s.maxOpenFiles, hs.bound, rfl⟩
    | some bytes =>
      have henter : Balanced room s.enter := by
        refine ⟨?_, ?_, max_le hs.bound ?_⟩
        · have := hs.count
          simp only [enter]
          omega
        · have := hs.room
          simp only [enter]
          omega
        · have := hs.room
          omega
      obtain ⟨most, hmost, hl⟩ := foldlM_loadLine (ih (Nat.le_add_left room fuel)) henter
        (hfs name bytes hf)
      have hexp : expand (files fs) includeFirst (room + 1) name =
          (bytes.splitOn 10).flatMap (expandLine fs room) := by
        rw [expand_file _ (by rw [files, hf]; rfl), List.flatMap_map]
        rfl
      dsimp only
      rw [hl, hexp]
      refine ⟨most, hmost, congrArg some ?_⟩
      simp only [leave, enter, add_sub_cancel_right, Nat.add_sub_cancel]

theorem construct_eq (hfs : LinesBelow (2 ^ 32 - 1) fs) (hfuel : 11 ≤ fuel) (name : List UInt8)
    (cSplitChar : UInt8) :
    ∃ most ≤ 11, construct fs fuel name cSplitChar =
      some ⟨name, 0, process cSplitChar (expand (files fs) includeFirst 11 name), 0, most⟩ :=
  loadConfig_loads hfs hfuel name ⟨name, 0, .empty, 0, 0⟩ ⟨rfl, rfl, Nat.zero_le 11⟩ (Nat.succ_pos 10)

theorem LinesBelow.mono {n k : Nat} (h : LinesBelow n fs) (hle : n ≤ k) : LinesBelow k fs :=
  fun name bytes hf line hl => Nat.lt_of_lt_of_le (h name bytes hf line hl) hle

theorem assign_nil (m : OrdMap (List UInt8) (List UInt8)) : assign cSplitChar m [] = m := rfl

end

-- ---------------------------------------------------------------------------
-- The expanded file
-- ---------------------------------------------------------------------------

/-- Loading ends with at most 11 files open at once. Where no chain of includes
is longer than 10, what is loaded is the expanded file, at any depth; a line's
own text may come first when no line has text before its `#include`. -/
theorem construct_flattens (fs : FileSystem) (hfs : LinesBelow (2 ^ 31) fs) (name : List UInt8)
    (cSplitChar : UInt8) (fuel : Nat) (hfuel : 11 ≤ fuel) :
    ∃ s, construct fs fuel name cSplitChar = some s ∧ s.nRecurseCount = 0 ∧ s.openFiles = 0 ∧
      s.maxOpenFiles ≤ 11 ∧
      (Inclusion.Within (files fs) 10 name → ∀ depth ≥ 11,
        s.mapConfig = process cSplitChar (expand (files fs) includeFirst depth name) ∧
        ((∀ f items, files fs f = some items → ∀ i ∈ items, i.1.isSome → i.2 = []) →
          s.mapConfig = process cSplitChar (expand (files fs) inPlace depth name))) := by
  obtain ⟨most, hmost, hc⟩ := construct_eq (hfs.mono (by decide)) hfuel name cSplitChar
  refine ⟨_, hc, rfl, rfl, hmost, fun hwithin depth hdepth => ?_⟩
  have hfirst : process cSplitChar (expand (files fs) includeFirst 11 name) =
      process cSplitChar (expand (files fs) includeFirst depth name) := by
    rw [Inclusion.expand_eq_of_within includeFirst hwithin hdepth]
  refine ⟨hfirst, fun hown => hfirst.trans ?_⟩
  symm
  apply Inclusion.foldl_expand_inPlace
  intro f items hf i hi hinc m
  rw [hown f items hf i hi hinc, assign_nil]

def twoFiles (main b : List UInt8) : FileSystem := fun name =>
  if name = text "main" then some main else if name = text "b" then some b else none

section
variable {main b name bytes : List UInt8}

theorem twoFiles_cases (h : twoFiles main b name = some bytes) :
    (name = text "main" ∧ bytes = main) ∨ (name = text "b" ∧ bytes = b) := by
  unfold twoFiles at h
  split at h
  · exact .inl ⟨‹_›, (Option.some.inj h).symm⟩
  · split at h
    · exact .inr ⟨‹_›, (Option.some.inj h).symm⟩
    · cases h

theorem twoFiles_linesBelow {n : Nat} (hmain : ∀ line ∈ main.splitOn 10, line.length < n)
    (hb : ∀ line ∈ b.splitOn 10, line.length < n) : LinesBelow n (twoFiles main b) := by
  intro name bytes hf
  rcases twoFiles_cases hf with ⟨-, rfl⟩ | ⟨-, rfl⟩
  · exact hmain
  · exact hb

theorem twoFiles_within (hmain : ∀ line ∈ main.splitOn 10, includeOf line ≠ some (text "main"))
    (hb : ∀ line ∈ b.splitOn 10, includeOf line = none) :
    Inclusion.Within (files (twoFiles main b)) 10 (text "main") := by
  have hincludes : ∀ f g, Inclusion.Includes (files (twoFiles main b)) f g →
      f = text "main" ∧ g = text "b" := by
    rintro f g ⟨items, hf, i, hi, hinc, hg⟩
    obtain ⟨bytes, hbytes, rfl⟩ := Option.map_eq_some_iff.mp hf
    obtain ⟨line, hline, rfl⟩ := List.mem_map.mp hi
    obtain ⟨bytes', hbytes'⟩ := Option.isSome_iff_exists.mp (Option.isSome_map.symm.trans hg)
    rcases twoFiles_cases hbytes with ⟨rfl, rfl⟩ | ⟨rfl, rfl⟩
    · rcases twoFiles_cases hbytes' with ⟨rfl, -⟩ | ⟨rfl, -⟩
      · exact absurd hinc (hmain line hline)
      · exact ⟨rfl, rfl⟩
    · rw [hb line hline] at hinc
      cases hinc
  intro gs hgs
  cases gs with
  | nil => exact Nat.zero_le 10
  | cons g gs =>
    cases gs with
    | nil => exact Nat.le_add_left 1 9
    | cons g' gs =>
      obtain ⟨hfirst, hrest⟩ := List.isChain_cons_cons.mp hgs
      have hsecond := (List.isChain_cons_cons.mp hrest).1
      have hne : text "b" ≠ text "main" := by decide
      exact absurd ((hincludes _ _ hfirst).2.symm.trans (hincludes _ _ hsecond).1) hne

end

theorem construct_flattens_twoFiles :
    ∃ s, construct (twoFiles (text "#include b\na=1") (text "a=2\nc=3")) 11 (text "main") 61 =
        some s ∧ s.nRecurseCount = 0 ∧ s.openFiles = 0 ∧ s.maxOpenFiles ≤ 11 ∧
      s.mapConfig = process 61 (expand (files (twoFiles (text "#include b\na=1")
        (text "a=2\nc=3"))) inPlace 11 (text "main")) := by
  obtain ⟨s, hs, hcount, hopen, hmost, hmap⟩ := construct_flattens
    (twoFiles (text "#include b\na=1") (text "a=2\nc=3"))
    (twoFiles_linesBelow (by decide) (by decide)) (text "main") 61 11 (Nat.le_refl 11)
  refine ⟨s, hs, hcount, hopen, hmost, (hmap (twoFiles_within (by decide) (by decide)) 11
    (Nat.le_refl 11)).2 ?_⟩
  intro f items hf i hi hinc
  obtain ⟨bytes, hbytes, rfl⟩ := Option.map_eq_some_iff.mp hf
  obtain ⟨line, hline, rfl⟩ := List.mem_map.mp hi
  have hmain : ∀ line ∈ (text "#include b\na=1").splitOn 10,
      (includeOf line).isSome → ownText line = [] := by decide
  have hb : ∀ line ∈ (text "a=2\nc=3").splitOn 10,
      (includeOf line).isSome → ownText line = [] := by decide
  rcases twoFiles_cases hbytes with ⟨-, rfl⟩ | ⟨-, rfl⟩
  · exact hmain line hline hinc
  · exact hb line hline hinc

def includeBehindText : FileSystem := twoFiles (text "a=1#include b") (text "\na=2")

/-- The text in front of an `#include` is processed last. -/
theorem not_inPlace_includeBehindText :
    LinesBelow (2 ^ 31) includeBehindText ∧
      Inclusion.Within (files includeBehindText) 10 (text "main") ∧
      ∃ s, construct includeBehindText 11 (text "main") 61 = some s ∧ ∀ depth ≥ 11,
        s.mapConfig ≠ process 61 (expand (files includeBehindText) inPlace depth (text "main")) := by
  have hfs : LinesBelow (2 ^ 31) includeBehindText := twoFiles_linesBelow (by decide) (by decide)
  have hwithin : Inclusion.Within (files includeBehindText) 10 (text "main") :=
    twoFiles_within (by decide) (by decide)
  have hfirst : (process 61 (expand (files includeBehindText) includeFirst 11
      (text "main"))).lookup (text "a") = some (text "1") := by decide
  have hplace : (process 61 (expand (files includeBehindText) inPlace 11
      (text "main"))).lookup (text "a") = some (text "2") := by decide
  have hne : text "1" ≠ text "2" := by decide
  obtain ⟨most, -, hc⟩ := construct_eq (hfs.mono (by decide)) (Nat.le_refl 11) (text "main") 61
  refine ⟨hfs, hwithin, _, hc, fun depth hdepth heq => hne ?_⟩
  have hlookup := congrArg (OrdMap.lookup · (text "a")) heq
  dsimp only at hlookup
  rw [Inclusion.expand_eq_of_within inPlace hwithin hdepth, hfirst, hplace] at hlookup
  exact Option.some.inj hlookup

end TextMining.CConfigInfo
