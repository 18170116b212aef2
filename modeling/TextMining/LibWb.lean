import TextMining.Lib.Rows
import TextMining.StringTool

/-!
# Splitting a line in libwb

`CStringTool::SpliteByChar` of libwb differs from the indexer's copy: a field
after a trailing separator is kept, and without a trailing separator the last
byte of the line is lost. The byte is kept where `size_t` has 64 bits, since a
search that finds nothing then does not leave `npos` in `pos`.
-/

namespace TextMining.LibWb

open StringTool

/-- The `do` loop; `none` when `substr` throws or the fuel runs out. -/
def splitLoop (npos : Nat) (input : List UInt8) (ch : UInt8) :
    Nat → Nat → Nat → List (List UInt8) → Option (List (List UInt8))
  | 0, _, _, _ => none
  | fuel + 1, pos, prepos, result =>
    let pos := u32 (find npos input ch pos)
    if pos ≠ npos ∧ pos = last npos input then
      -- found, but at the tail
      match substr input prepos (u32 (pos + 2 ^ 32 - prepos)) with
      | none => none
      | some tmp => some (result ++ [tmp, []])
    else
      let pos := if pos = npos then u32 (last npos input) else pos
      match substr input prepos (u32 (pos + 2 ^ 32 - prepos)) with
      | none => none
      | some tmp =>
        let result := result ++ [tmp]
        if pos ≥ last npos input then some result
        else
          let pos := u32 (pos + 1)
          if pos ≠ npos then splitLoop npos input ch fuel pos pos result else some result

def SpliteByChar (npos : Nat) (input : List UInt8) (ch : UInt8) : Option (List (List UInt8)) :=
  splitLoop npos input ch (input.length + 1) 0 0 []

/-- The fields between the separators of a line whose last byte, unless it is
a separator, is left out. -/
def columns (ch : UInt8) (line : List UInt8) : List (List UInt8) :=
  (if line.getLast? = some ch then line else line.dropLast).splitOn ch

theorem columns_of_not_mem {ch : UInt8} {line : List UInt8} (h : ch ∉ line) :
    columns ch line = [line.dropLast] := by
  rw [columns, if_neg fun hl => h (List.mem_of_getLast? hl),
    List.splitOn_eq_singleton fun hm => h (List.dropLast_subset line hm)]

theorem columns_concat {ch : UInt8} {tmp : List UInt8} (h : ch ∉ tmp) :
    columns ch (tmp ++ [ch]) = [tmp, []] := by
  rw [columns, if_pos (by simp), List.splitOn_append_cons_self_of_not_mem h, List.splitOn_nil]

theorem columns_append {ch : UInt8} {tmp rest : List UInt8} (h : ch ∉ tmp) (hr : rest ≠ []) :
    columns ch (tmp ++ ch :: rest) = tmp :: columns ch rest := by
  obtain ⟨b, hb⟩ : ∃ b, rest.getLast? = some b := ⟨_, List.getLast?_eq_some_getLast hr⟩
  have hl : (tmp ++ ch :: rest).getLast? = some b := by
    simp [List.getLast?_append, List.getLast?_cons, hb]
  rw [columns, columns, hl, hb]
  split
  · rw [List.splitOn_append_cons_self_of_not_mem h]
  · rw [List.dropLast_append_of_ne_nil (List.cons_ne_nil ch rest), List.dropLast_cons_of_ne_nil hr,
      List.splitOn_append_cons_self_of_not_mem h]

section
variable {npos : Nat} {input : List UInt8} {ch : UInt8}

/-- The loop from a position inside the line splits what is left of it. -/
theorem splitLoop_eq (hn : npos = 2 ^ 32 - 1) (hlen : input.length < 2 ^ 32 - 1) {fuel pos : Nat}
    {result : List (List UInt8)} (hpos : pos < input.length) (hfuel : input.length - pos < fuel) :
    splitLoop npos input ch fuel pos pos result = some (result ++ columns ch (input.drop pos)) := by
  induction fuel generalizing pos result with
  | zero => omega
  | succ fuel ih =>
    have hsize : last npos input = input.length - 1 := if_neg (by omega)
    unfold splitLoop
    cases hf : (input.drop pos).findIdx? (· == ch) with
    | none =>
      have hch : ch ∉ input.drop pos := fun hc => by
        simpa using List.findIdx?_eq_none_iff.mp hf ch hc
      have hfind : u32 (find npos input ch pos) = npos := by
        simp only [find, hf, u32, hn]
        omega
      have hlast : u32 (input.length - 1) = input.length - 1 := by
        simp only [u32]
        omega
      have hsub : substr input pos (u32 (input.length - 1 + 2 ^ 32 - pos)) =
          some ((input.drop pos).take (input.length - 1 - pos)) :=
        substr_eq (by omega) hpos.le (by omega)
      have htake : (input.drop pos).take (input.length - 1 - pos) = (input.drop pos).dropLast := by
        rw [List.dropLast_eq_take, List.length_drop, Nat.sub_right_comm]
      simp only [hfind, hsize, hlast, hsub, if_true, ne_eq, not_true_eq_false, false_and, if_false,
        htake, columns_of_not_mem hch, ge_iff_le, le_refl]
    | some k =>
      obtain ⟨tmp, rest, he, hk, htmp⟩ := split_of_findIdx? hf
      have hl : input.length - pos = tmp.length + (rest.length + 1) := by
        simpa using congrArg List.length he
      subst hk
      have hfind : u32 (find npos input ch pos) = pos + tmp.length := by
        simp only [find, hf, u32]
        omega
      have hne : pos + tmp.length ≠ npos := by omega
      have hsub : substr input pos (u32 (pos + tmp.length + 2 ^ 32 - pos)) = some tmp := by
        rw [substr_eq (by omega) hpos.le (by omega), he, Nat.add_sub_cancel_left, List.take_left]
      simp only [hfind, hne, if_false, hsub, hsize, he, ne_eq, not_false_eq_true, true_and]
      by_cases hr : rest = []
      · subst hr
        rw [if_pos (by simp at hl; omega), columns_concat htmp]
      · have hr' : 0 < rest.length := List.length_pos_iff.mpr hr
        have hnext : u32 (pos + tmp.length + 1) = pos + tmp.length + 1 := by
          simp only [u32]; omega
        have hdrop : input.drop (pos + tmp.length + 1) = rest := by
          rw [Nat.add_assoc, ← List.drop_drop, he]
          simp
        rw [if_neg (by omega), if_neg (by omega), hnext, if_pos (by omega),
          ih (by omega) (by omega), hdrop, columns_append htmp hr]
        simp

theorem SpliteByChar_eq (hn : npos = 2 ^ 32 - 1) (hne : input ≠ [])
    (hlen : input.length < 2 ^ 32 - 1) :
    SpliteByChar npos input ch = some (columns ch input) := by
  have hpos : 0 < input.length := List.length_pos_iff.mpr hne
  rw [SpliteByChar, splitLoop_eq hn hlen hpos (by omega)]
  simp

-- ---------------------------------------------------------------------------
-- With a `size_t` of 64 bits
-- ---------------------------------------------------------------------------

/-- `npos` of 64 bits. -/
def npos64 : Nat := 2 ^ 64 - 1

theorem u32_npos64 : u32 npos64 = 2 ^ 32 - 1 := by
  simp only [u32, npos64]
  rfl

theorem splitLoop_eq_splitOn (hlen : input.length < 2 ^ 32 - 1) {fuel pos : Nat}
    {result : List (List UInt8)} (hpos : pos < input.length) (hfuel : input.length - pos < fuel) :
    splitLoop npos64 input ch fuel pos pos result =
      some (result ++ (input.drop pos).splitOn ch) := by
  induction fuel generalizing pos result with
  | zero => exact absurd hfuel (Nat.not_lt_zero _)
  | succ fuel ih =>
    have hsize : last npos64 input = input.length - 1 := if_neg (by omega)
    unfold splitLoop
    cases hf : (input.drop pos).findIdx? (· == ch) with
    | none =>
      have hch : ch ∉ input.drop pos := fun hc => by
        simpa using List.findIdx?_eq_none_iff.mp hf ch hc
      have hfind : u32 (find npos64 input ch pos) = 2 ^ 32 - 1 := by
        simp only [find, hf]
        exact u32_npos64
      have hne : (2 ^ 32 - 1 : Nat) ≠ npos64 := by decide
      have hsub : substr input pos (u32 (2 ^ 32 - 1 + 2 ^ 32 - pos)) = some (input.drop pos) := by
        rw [substr_eq (by omega) hpos.le (by omega),
          List.take_of_length_le (by rw [List.length_drop]; omega)]
      have htail : ¬((2 ^ 32 - 1 : Nat) ≠ npos64 ∧ 2 ^ 32 - 1 = input.length - 1) := by omega
      simp only [hfind, hsize, if_neg htail, if_neg hne, hsub]
      rw [if_pos (by omega), List.splitOn_eq_singleton hch]
    | some k =>
      obtain ⟨tmp, rest, he, hk, htmp⟩ := split_of_findIdx? hf
      have hl : input.length - pos = tmp.length + (rest.length + 1) := by
        simpa using congrArg List.length he
      subst hk
      have hfind : u32 (find npos64 input ch pos) = pos + tmp.length := by
        simp only [find, hf, u32]
        omega
      have hne : pos + tmp.length ≠ npos64 := by
        rw [npos64]
        omega
      have hsub : substr input pos (u32 (pos + tmp.length + 2 ^ 32 - pos)) = some tmp := by
        rw [substr_eq (by omega) hpos.le (by omega), he, Nat.add_sub_cancel_left, List.take_left]
      simp only [hfind, hne, if_false, hsub, hsize, he, ne_eq, not_false_eq_true, true_and,
        List.splitOn_append_cons_self_of_not_mem htmp]
      cases rest with
      | nil =>
        rw [List.length_nil] at hl
        rw [if_pos (by omega)]
        rfl
      | cons b rest =>
        rw [List.length_cons] at hl
        have hnext : u32 (pos + tmp.length + 1) = pos + tmp.length + 1 := by
          simp only [u32]
          omega
        have hdrop : input.drop (pos + tmp.length + 1) = b :: rest := by
          rw [Nat.add_assoc, ← List.drop_drop, he]
          simp
        have hgo : pos + tmp.length + 1 ≠ npos64 := by
          rw [npos64]
          omega
        rw [if_neg (by omega), if_neg (by omega), hnext, if_pos hgo, ih (by omega) (by omega),
          hdrop, List.append_assoc]
        rfl

/-- The fields have no separator, and the line is what they join to. -/
theorem splitsLosslessly (s : List UInt8) (c : UInt8) (hne : s ≠ []) (hlen : s.length < 2 ^ 32 - 1) :
    ∃ fields, SpliteByChar npos64 s c = some fields ∧ (∀ f ∈ fields, c ∉ f) ∧
      fields.length = s.count c + 1 ∧ [c].intercalate fields = s := by
  refine ⟨s.splitOn c, ?_, (Row.splitOn_separable c s).2, Row.length_splitOn c s,
    List.intercalate_splitOn c⟩
  rw [SpliteByChar, splitLoop_eq_splitOn hlen (List.length_pos_iff.mpr hne) (by omega)]
  rfl

theorem splitsLosslessly_commas : ∃ fields, SpliteByChar npos64 (text ",a,,b,") 44 = some fields ∧
    (∀ f ∈ fields, 44 ∉ f) ∧ fields.length = (text ",a,,b,").count 44 + 1 ∧
      [44].intercalate fields = text ",a,,b," :=
  splitsLosslessly _ 44 (by decide) (by decide)

end

end TextMining.LibWb
