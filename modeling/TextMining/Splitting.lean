import TextMining.LibWb

/-!
# Splitting ends

`SpliteByStr` of libwb and of the indexer, and when it and `SpliteByChar` end
where `unsigned int` has 32 bits and `size_t` 64. The loops leave off at a
position that is at least `size() - 1`, or `size() - str.size()`. These wrap
around for a short input, and no 32-bit position reaches them for a very long
one.
-/

namespace TextMining

open StringTool (u32 find findStr substr last)
open LibWb (npos64)

/-- A byte string below the `max_size` of a `std::string`. -/
abbrev StdString := { s : List UInt8 // s.length < 2 ^ 63 }

-- ---------------------------------------------------------------------------
-- Splitting by a string
-- ---------------------------------------------------------------------------

/-- A difference of two `size_t`. -/
def sizeDiff (a b : Nat) : Nat := (a + (npos64 + 1) - b) % (npos64 + 1)

namespace LibWb

def splitStrLoop (input str : List UInt8) :
    Nat → Nat → Nat → List (List UInt8) → Option (List (List UInt8))
  | 0, _, _, _ => none
  | fuel + 1, pos, prepos, result =>
    let pos := findStr npos64 input str pos
    let pos := if pos = npos64 then input.length else pos
    match substr input prepos (sizeDiff pos prepos) with
    | none => none
    | some tmp =>
      let result := result ++ [tmp]
      if pos ≥ sizeDiff input.length str.length then some result
      else
        let pos := (pos + str.length) % (npos64 + 1)
        if pos ≠ npos64 then splitStrLoop input str fuel pos pos result else some result

def SpliteByStr (fuel : Nat) (input str : List UInt8) : Option (List (List UInt8)) :=
  if str.length > input.length then some [] else splitStrLoop input str fuel 0 0 []

end LibWb

namespace StringTool

/-- The `do` loop of `SpliteByStr`, whose positions are `unsigned int`. -/
def splitStrLoop (input str : List UInt8) :
    Nat → Nat → Nat → List (List UInt8) → Option (List (List UInt8))
  | 0, _, _, _ => none
  | fuel + 1, pos, prepos, result =>
    let pos := u32 (findStr npos64 input str pos)
    let pos := if pos = npos64 then u32 input.length else pos
    match substr input prepos (u32 (pos + 2 ^ 32 - prepos)) with
    | none => none
    | some tmp =>
      let result := result ++ [tmp]
      if pos ≥ sizeDiff input.length str.length then some result
      else
        let pos := u32 (pos + str.length)
        if pos ≠ npos64 then splitStrLoop input str fuel pos pos result else some result

def SpliteByStr (fuel : Nat) (input str : List UInt8) : Option (List (List UInt8)) :=
  splitStrLoop input str fuel 0 0 []

end StringTool

-- ---------------------------------------------------------------------------
-- Splitting by a character
-- ---------------------------------------------------------------------------

section
variable {input : List UInt8} {ch : UInt8} {fuel pos prepos : Nat} {result : List (List UInt8)}

theorem u32_lt (n : Nat) : u32 n < 2 ^ 32 := by
  simp only [u32]
  omega

theorem u32_of_lt {n : Nat} (h : n < 2 ^ 32) : u32 n = n := by
  simp only [u32]
  omega

theorem u32_ne_npos64 (n : Nat) : u32 n ≠ npos64 := by
  have := u32_lt n
  rw [npos64]
  omega

/-- Beyond every position the loops go on for ever, or `substr` throws. -/
theorem LibWb.splitLoop_eq_none (h : 2 ^ 32 ≤ last npos64 input) :
    LibWb.splitLoop npos64 input ch fuel pos prepos result = none := by
  induction fuel generalizing pos prepos result with
  | zero => rfl
  | succ fuel ih =>
    have hlt := u32_lt (find npos64 input ch pos)
    have htail : ¬(u32 (find npos64 input ch pos) ≠ npos64 ∧
        u32 (find npos64 input ch pos) = last npos64 input) := by omega
    rw [LibWb.splitLoop]
    simp only [if_neg htail, if_neg (u32_ne_npos64 _)]
    split
    · rfl
    · rw [if_neg (by omega), if_pos (u32_ne_npos64 _)]
      exact ih

theorem StringTool.splitLoop_eq_none (h : 2 ^ 32 ≤ last npos64 input) :
    StringTool.splitLoop npos64 input ch fuel pos prepos result = none := by
  induction fuel generalizing pos prepos result with
  | zero => rfl
  | succ fuel ih =>
    have hlt := u32_lt (find npos64 input ch pos)
    rw [StringTool.splitLoop]
    simp only [StringTool.stop, if_neg (u32_ne_npos64 _)]
    split
    · rfl
    · rw [if_neg (by omega), if_pos (u32_ne_npos64 _)]
      exact ih

theorem find_cases (ch : UInt8) (pos : Nat) (hlen : input.length ≤ 2 ^ 32) :
    u32 (find npos64 input ch pos) = 2 ^ 32 - 1 ∨
      pos ≤ u32 (find npos64 input ch pos) ∧ u32 (find npos64 input ch pos) < input.length := by
  cases hf : (input.drop pos).findIdx? (· == ch) with
  | none =>
    left
    simp only [find, hf]
    exact LibWb.u32_npos64
  | some k =>
    right
    obtain ⟨hk, -⟩ := List.findIdx?_eq_some_iff_getElem.mp hf
    rw [List.length_drop] at hk
    simp only [find, hf]
    rw [u32_of_lt (by omega)]
    omega

theorem LibWb.splitLoop_returns (hlen : input.length ≤ 2 ^ 32)
    (hpos : pos < input.length) (hfuel : input.length - pos < fuel) :
    ∃ fields, LibWb.splitLoop npos64 input ch fuel pos pos result = some fields := by
  induction fuel generalizing pos result with
  | zero => exact absurd hfuel (Nat.not_lt_zero _)
  | succ fuel ih =>
    have hlast : last npos64 input = input.length - 1 := if_neg (by omega)
    have hsub : ∀ n, substr input pos n = some ((input.drop pos).take n) :=
      fun n => if_pos hpos.le
    rw [LibWb.splitLoop]
    simp only [hsub, hlast, if_neg (u32_ne_npos64 _)]
    split
    · exact ⟨_, rfl⟩
    · split
      · exact ⟨_, rfl⟩
      · rename_i hgo
        have hf := (find_cases ch pos hlen).resolve_left (by omega)
        have hnext : u32 (u32 (find npos64 input ch pos) + 1) =
            u32 (find npos64 input ch pos) + 1 := u32_of_lt (by omega)
        rw [if_pos (u32_ne_npos64 _), hnext]
        exact ih (by omega) (by omega)

theorem StringTool.splitLoop_returns (hlen : input.length ≤ 2 ^ 32)
    (hpos : pos < input.length) (hfuel : input.length - pos < fuel) :
    ∃ fields, StringTool.splitLoop npos64 input ch fuel pos pos result = some fields := by
  induction fuel generalizing pos result with
  | zero => exact absurd hfuel (Nat.not_lt_zero _)
  | succ fuel ih =>
    have hlast : last npos64 input = input.length - 1 := if_neg (by omega)
    have hsub : ∀ n, substr input pos n = some ((input.drop pos).take n) :=
      fun n => if_pos hpos.le
    rw [StringTool.splitLoop]
    simp only [StringTool.stop, hsub, hlast, if_neg (u32_ne_npos64 _)]
    split
    · exact ⟨_, rfl⟩
    · rename_i hgo
      have hf := (find_cases ch pos hlen).resolve_left (by omega)
      have hnext : u32 (u32 (find npos64 input ch pos) + 1) =
          u32 (find npos64 input ch pos) + 1 := u32_of_lt (by omega)
      rw [if_pos (u32_ne_npos64 _), hnext]
      exact ih (by omega) (by omega)

theorem two_pow_le_last (h : ¬(input ≠ [] ∧ input.length ≤ 2 ^ 32)) :
    2 ^ 32 ≤ last npos64 input := by
  rw [last]
  split
  · decide
  · rename_i hlen
    have hne : input ≠ [] := fun he => hlen (by rw [he]; rfl)
    have hgt : ¬input.length ≤ 2 ^ 32 := fun hle => h ⟨hne, hle⟩
    omega

theorem LibWb.returns_iff :
    (∃ fuel fields, LibWb.splitLoop npos64 input ch fuel 0 0 [] = some fields) ↔
      input ≠ [] ∧ input.length ≤ 2 ^ 32 := by
  constructor
  · rintro ⟨fuel, fields, h⟩
    by_contra hno
    rw [LibWb.splitLoop_eq_none (two_pow_le_last hno)] at h
    cases h
  · rintro ⟨hne, hlen⟩
    exact ⟨input.length + 1, LibWb.splitLoop_returns hlen (List.length_pos_iff.mpr hne)
      (Nat.lt_succ_self _)⟩

theorem StringTool.returns_iff :
    (∃ fuel fields, StringTool.splitLoop npos64 input ch fuel 0 0 [] = some fields) ↔
      input ≠ [] ∧ input.length ≤ 2 ^ 32 := by
  constructor
  · rintro ⟨fuel, fields, h⟩
    by_contra hno
    rw [StringTool.splitLoop_eq_none (two_pow_le_last hno)] at h
    cases h
  · rintro ⟨hne, hlen⟩
    exact ⟨input.length + 1, StringTool.splitLoop_returns hlen (List.length_pos_iff.mpr hne)
      (Nat.lt_succ_self _)⟩

end

-- ---------------------------------------------------------------------------
-- Splitting by a string ends
-- ---------------------------------------------------------------------------

section
variable {input str : List UInt8} {fuel pos prepos : Nat} {result : List (List UInt8)}

theorem sizeDiff_of_le {a b : Nat} (hle : b ≤ a) (ha : a ≤ npos64) : sizeDiff a b = a - b := by
  have hsum : a + (npos64 + 1) - b = a - b + (npos64 + 1) := by omega
  rw [sizeDiff, hsum, Nat.add_mod_right, Nat.mod_eq_of_lt (by omega)]

theorem findStr_cases (input : List UInt8) (pos : Nat) (hstr : str ≠ []) : findStr npos64 input str pos = npos64 ∨
    pos ≤ findStr npos64 input str pos ∧
      findStr npos64 input str pos + str.length ≤ input.length := by
  rw [StringTool.findStr_eq npos64 hstr]
  cases hcut : Occurrence.cut str (input.drop pos) with
  | none => exact .inl rfl
  | some r =>
    obtain ⟨a, b⟩ := r
    have hlen := Occurrence.length_of_cut hcut
    have hpos := List.length_pos_iff.mpr hstr
    rw [List.length_drop] at hlen
    simp only [Option.map_some, Option.getD_some]
    omega

theorem LibWb.splitStrLoop_returns (hstr : str ≠ []) (hle : str.length ≤ input.length)
    (hlen : input.length < 2 ^ 63) (hpos : pos ≤ input.length) (hfuel : input.length - pos < fuel) :
    ∃ fields, LibWb.splitStrLoop input str fuel pos pos result = some fields := by
  induction fuel generalizing pos result with
  | zero => exact absurd hfuel (Nat.not_lt_zero _)
  | succ fuel ih =>
    have hk := List.length_pos_iff.mpr hstr
    have hnpos : npos64 = 2 ^ 64 - 1 := rfl
    have hsub : ∀ n, substr input pos n = some ((input.drop pos).take n) := fun n => if_pos hpos
    have hdiff : sizeDiff input.length str.length = input.length - str.length :=
      sizeDiff_of_le hle (by omega)
    rw [LibWb.splitStrLoop]
    simp only [hsub, hdiff]
    rcases findStr_cases input pos hstr with hf | ⟨hf, hend⟩
    · simp only [if_pos hf]
      rw [if_pos (show input.length ≥ input.length - str.length by omega)]
      exact ⟨_, rfl⟩
    · have hne : findStr npos64 input str pos ≠ npos64 := by omega
      simp only [if_neg hne]
      split
      · exact ⟨_, rfl⟩
      · rename_i hgo
        have hnext : (findStr npos64 input str pos + str.length) % (npos64 + 1) =
            findStr npos64 input str pos + str.length := Nat.mod_eq_of_lt (by omega)
        rw [hnext, if_pos (by omega)]
        exact ih (by omega) (by omega)

theorem LibWb.SpliteByStr_returns (hstr : str ≠ []) (hlen : input.length < 2 ^ 63) :
    ∃ fuel fields, LibWb.SpliteByStr fuel input str = some fields := by
  refine ⟨input.length + 1, ?_⟩
  rw [LibWb.SpliteByStr]
  split
  · exact ⟨_, rfl⟩
  · exact LibWb.splitStrLoop_returns hstr (by omega) hlen (Nat.zero_le _) (by omega)

/-- A separator that is longer than the line is never found, and the position
never gets as far as the difference, which wraps around. -/
theorem StringTool.splitStrLoop_eq_none (hlt : input.length < str.length)
    (hlen : str.length < 2 ^ 63) :
    StringTool.splitStrLoop input str fuel pos prepos result = none := by
  induction fuel generalizing pos prepos result with
  | zero => rfl
  | succ fuel ih =>
    have hstr : str ≠ [] := List.ne_nil_of_length_pos (by omega)
    have hf : findStr npos64 input str pos = npos64 := by
      rcases findStr_cases input pos hstr with hf | ⟨-, hend⟩
      · exact hf
      · omega
    have hnpos : npos64 = 2 ^ 64 - 1 := rfl
    have hdiff : 2 ^ 32 ≤ sizeDiff input.length str.length := by
      rw [sizeDiff, Nat.mod_eq_of_lt (by omega)]
      omega
    have hne : 2 ^ 32 - 1 ≠ npos64 := by omega
    rw [StringTool.splitStrLoop]
    simp only [hf, LibWb.u32_npos64, if_neg hne]
    split
    · rfl
    · rw [if_neg (by omega), if_pos (u32_ne_npos64 _)]
      exact ih

theorem StringTool.splitStrLoop_returns (hstr : str ≠ []) (hle : str.length ≤ input.length)
    (hlen : input.length ≤ 2 ^ 32) (hpos : pos ≤ input.length) (hfuel : input.length - pos < fuel) :
    ∃ fields, StringTool.splitStrLoop input str fuel pos pos result = some fields := by
  induction fuel generalizing pos result with
  | zero => exact absurd hfuel (Nat.not_lt_zero _)
  | succ fuel ih =>
    have hk := List.length_pos_iff.mpr hstr
    have hsub : ∀ n, substr input pos n = some ((input.drop pos).take n) := fun n => if_pos hpos
    have hnpos : npos64 = 2 ^ 64 - 1 := rfl
    have hdiff : sizeDiff input.length str.length = input.length - str.length :=
      sizeDiff_of_le hle (by omega)
    rw [StringTool.splitStrLoop]
    simp only [hsub, hdiff, if_neg (u32_ne_npos64 _)]
    rcases findStr_cases input pos hstr with hf | ⟨hf, hend⟩
    · rw [hf, LibWb.u32_npos64, if_pos (by omega)]
      exact ⟨_, rfl⟩
    · rw [u32_of_lt (n := findStr npos64 input str pos) (by omega)]
      split
      · exact ⟨_, rfl⟩
      · rename_i hgo
        have hnext : u32 (findStr npos64 input str pos + str.length) =
            findStr npos64 input str pos + str.length := u32_of_lt (by omega)
        rw [hnext, if_pos (by omega)]
        exact ih (by omega) (by omega)

theorem StringTool.SpliteByStr_returns_iff (input : List UInt8) (hstr : str ≠ []) (hlen : input.length ≤ 2 ^ 32)
    (hsep : str.length < 2 ^ 63) :
    (∃ fuel fields, StringTool.SpliteByStr fuel input str = some fields) ↔
      str.length ≤ input.length := by
  constructor
  · rintro ⟨fuel, fields, h⟩
    by_contra hlt
    rw [StringTool.SpliteByStr, StringTool.splitStrLoop_eq_none (Nat.not_le.mp hlt) hsep] at h
    cases h
  · exact fun hle => ⟨input.length + 1, StringTool.splitStrLoop_returns hstr hle hlen
      (Nat.zero_le _) (by omega)⟩

end

-- ---------------------------------------------------------------------------
-- All four
-- ---------------------------------------------------------------------------

/-- `SpliteByChar` and `SpliteByStr` of libwb and of the indexer return. -/
structure AllReturn (s : StdString) (c : UInt8) (sep : StdString) : Prop where
  wbChar : ∃ fuel fields, LibWb.splitLoop npos64 s.1 c fuel 0 0 [] = some fields
  wbStr : ∃ fuel fields, LibWb.SpliteByStr fuel s.1 sep.1 = some fields
  char : ∃ fuel fields, StringTool.splitLoop npos64 s.1 c fuel 0 0 [] = some fields
  str : ∃ fuel fields, StringTool.SpliteByStr fuel s.1 sep.1 = some fields

/-- Each of the four returns just on these inputs. For a line that is longer
than 2 ^ 32 nothing is said of the second splitting by a string. -/
theorem allReturn_iff (s : StdString) (c : UInt8) (sep : StdString) (hsep : sep.1 ≠ []) :
    (AllReturn s c sep ↔ s.1 ≠ [] ∧ s.1.length ≤ 2 ^ 32 ∧ sep.1.length ≤ s.1.length) ∧
      ((∃ fuel fields, LibWb.splitLoop npos64 s.1 c fuel 0 0 [] = some fields) ↔
        s.1 ≠ [] ∧ s.1.length ≤ 2 ^ 32) ∧
      (∃ fuel fields, LibWb.SpliteByStr fuel s.1 sep.1 = some fields) ∧
      ((∃ fuel fields, StringTool.splitLoop npos64 s.1 c fuel 0 0 [] = some fields) ↔
        s.1 ≠ [] ∧ s.1.length ≤ 2 ^ 32) ∧
      (s.1.length ≤ 2 ^ 32 →
        ((∃ fuel fields, StringTool.SpliteByStr fuel s.1 sep.1 = some fields) ↔
          sep.1.length ≤ s.1.length)) := by
  have hwb := LibWb.SpliteByStr_returns hsep s.2
  have hstr := fun hlen => StringTool.SpliteByStr_returns_iff s.1 hsep hlen sep.2
  refine ⟨⟨fun h => ?_, ?_⟩, LibWb.returns_iff, hwb, StringTool.returns_iff, hstr⟩
  · obtain ⟨hne, hlen⟩ := LibWb.returns_iff.mp h.wbChar
    exact ⟨hne, hlen, (hstr hlen).mp h.str⟩
  · rintro ⟨hne, hlen, hle⟩
    exact ⟨LibWb.returns_iff.mpr ⟨hne, hlen⟩, hwb, StringTool.returns_iff.mpr ⟨hne, hlen⟩,
      (hstr hlen).mpr hle⟩

theorem allReturn_iff_list : (AllReturn ⟨text "1,2", by decide⟩ 44 ⟨text ",", by decide⟩ ↔
      text "1,2" ≠ [] ∧ (text "1,2").length ≤ 2 ^ 32 ∧ (text ",").length ≤ (text "1,2").length) ∧
    ((∃ fuel fields, LibWb.splitLoop npos64 (text "1,2") 44 fuel 0 0 [] = some fields) ↔
      text "1,2" ≠ [] ∧ (text "1,2").length ≤ 2 ^ 32) ∧
    (∃ fuel fields, LibWb.SpliteByStr fuel (text "1,2") (text ",") = some fields) ∧
    ((∃ fuel fields, StringTool.splitLoop npos64 (text "1,2") 44 fuel 0 0 [] = some fields) ↔
      text "1,2" ≠ [] ∧ (text "1,2").length ≤ 2 ^ 32) ∧
    ((text "1,2").length ≤ 2 ^ 32 →
      ((∃ fuel fields, StringTool.SpliteByStr fuel (text "1,2") (text ",") = some fields) ↔
        (text ",").length ≤ (text "1,2").length)) :=
  allReturn_iff ⟨text "1,2", by decide⟩ 44 ⟨text ",", by decide⟩ (by decide)

/-- The types that are required are split at tabs, also when there are none. -/
theorem not_allReturn_empty : ¬AllReturn ⟨[], by decide⟩ 9 ⟨text "\t", by decide⟩ := by
  intro h
  obtain ⟨fuel, fields, hloop⟩ := h.wbChar
  rw [LibWb.splitLoop_eq_none (by decide)] at hloop
  cases hloop

end TextMining
