import TextMining.Lib.Bytes
import TextMining.Lib.Occurrence
import Mathlib.Tactic.Common

/-!
# Splitting a line by a character

`CStringTool::SpliteByChar` of the indexer. `npos` is the largest `size_t`;
the positions are `unsigned int`, and a `size_t` stored in one loses its high
bits. For a non-empty line the fields are those between the separators, with
an empty field after a trailing separator left out.
-/

namespace TextMining.StringTool

def find (npos : Nat) (input : List UInt8) (ch : UInt8) (pos : Nat) : Nat :=
  match (input.drop pos).findIdx? (· == ch) with
  | some k => pos + k
  | none => npos

def findStr (npos : Nat) (input str : List UInt8) (pos : Nat) : Nat :=
  match (List.range (input.length + 1 - pos)).find? fun k =>
    str.isPrefixOf (input.drop (pos + k)) with
  | some k => pos + k
  | none => npos

/-- `std::string::substr(pos, n)`, which throws past the end. -/
def substr (input : List UInt8) (pos n : Nat) : Option (List UInt8) :=
  if pos ≤ input.length then some ((input.drop pos).take n) else none

@[irreducible] def u32 (n : Nat) : Nat := n % 2 ^ 32

def replace (input : List UInt8) (pos n : Nat) (str : List UInt8) : List UInt8 :=
  input.take pos ++ str ++ input.drop (pos + n)

/-- The largest `size_t` of 32 bits. -/
def npos32 : Nat := 2 ^ 32 - 1

abbrev String32 := { s : List UInt8 // s.length < npos32 }

/-- `input.size() - 1`, a `size_t`. -/
def last (npos : Nat) (input : List UInt8) : Nat :=
  if input.length = 0 then npos else input.length - 1

/-- `pos` after the search of an iteration. -/
def stop (npos : Nat) (input : List UInt8) (ch : UInt8) (pos : Nat) : Nat :=
  let pos := u32 (find npos input ch pos)
  if pos = npos then u32 input.length else pos

/-- The `do` loop; `none` when `substr` throws or the fuel runs out. -/
def splitLoop (npos : Nat) (input : List UInt8) (ch : UInt8) :
    Nat → Nat → Nat → List (List UInt8) → Option (List (List UInt8))
  | 0, _, _, _ => none
  | fuel + 1, pos, prepos, result =>
    let pos := stop npos input ch pos
    match substr input prepos (u32 (pos + 2 ^ 32 - prepos)) with
    | none => none
    | some tmp =>
      let result := result ++ [tmp]
      if pos ≥ last npos input then some result
      else
        let pos := u32 (pos + 1)
        if pos ≠ npos then splitLoop npos input ch fuel pos pos result else some result

def SpliteByChar (npos : Nat) (input : List UInt8) (ch : UInt8) : Option (List (List UInt8)) :=
  splitLoop npos input ch (input.length + 1) 0 0 []

-- ---------------------------------------------------------------------------
-- Searching for a string
-- ---------------------------------------------------------------------------

theorem findStr_eq (npos : Nat) {input str : List UInt8} {pos : Nat} (hstr : str ≠ []) :
    findStr npos input str pos =
      ((Occurrence.cut str (input.drop pos)).map fun r => pos + r.1.length).getD npos := by
  rw [findStr]
  cases hcut : Occurrence.cut str (input.drop pos) with
  | none =>
    have hnone : ((List.range (input.length + 1 - pos)).find? fun k =>
        str.isPrefixOf (input.drop (pos + k))) = none := by
      rw [List.find?_eq_none]
      intro k _ hk
      refine Occurrence.cut_eq_none.mp hcut ?_
      rw [← List.drop_drop] at hk
      exact (List.isPrefixOf_iff_prefix.mp hk).isInfix.trans (List.drop_suffix k _).isInfix
    rw [hnone]
    rfl
  | some r =>
    obtain ⟨a, b⟩ := r
    obtain ⟨hdrop, hfirst⟩ := Occurrence.cut_eq_some hcut
    have hlen := congrArg List.length hdrop
    rw [List.length_append, List.length_append, List.length_drop] at hlen
    have hpos := List.length_pos_iff.mpr hstr
    have hsome : ((List.range (input.length + 1 - pos)).find? fun k =>
        str.isPrefixOf (input.drop (pos + k))) = some a.length := by
      rw [List.find?_range_eq_some, List.mem_range]
      refine ⟨?_, by omega, fun j hj => ?_⟩
      · rw [← List.drop_drop, hdrop, List.append_assoc, List.drop_left]
        exact List.isPrefixOf_iff_prefix.mpr (List.prefix_append str b)
      · rw [← List.drop_drop, Bool.not_eq_true', ← Bool.not_eq_true, List.isPrefixOf_iff_prefix]
        exact hfirst j hj
    rw [hsome]
    rfl

section
variable {input str t a b : List UInt8} {pos : Nat} {x : UInt8}

theorem length_of_drop (h : input.drop pos = x :: t) :
    input.length = pos + (t.length + 1) := by
  have hlen := congrArg List.length h
  rw [List.length_drop, List.length_cons] at hlen
  omega

theorem u32_findStr (hsize : input.length < npos32) (hstr : str ≠ [])
    (h : Occurrence.cut str (input.drop pos) = some (a, b)) :
    u32 (findStr npos32 input str pos) = pos + a.length ∧ pos + a.length < npos32 := by
  have hlen := Occurrence.length_of_cut h
  have hpos := List.length_pos_iff.mpr hstr
  have hnpos : npos32 = 2 ^ 32 - 1 := rfl
  rw [List.length_drop] at hlen
  rw [findStr_eq npos32 hstr, h]
  simp only [Option.map_some, Option.getD_some, u32]
  omega

theorem u32_findStr_none (hstr : str ≠ [])
    (h : Occurrence.cut str (input.drop pos) = none) : u32 (findStr npos32 input str pos) = npos32 := by
  rw [findStr_eq npos32 hstr, h]
  simp only [Option.map_none, Option.getD_none, u32, npos32]
  rfl

end

-- ---------------------------------------------------------------------------
-- The fields of a line
-- ---------------------------------------------------------------------------

/-- The fields between the separators; a trailing separator ends the last
field and starts no other. -/
def columns (ch : UInt8) (line : List UInt8) : List (List UInt8) :=
  if line.getLast? = some ch then (line.splitOn ch).dropLast else line.splitOn ch

theorem columns_of_not_mem {ch : UInt8} {line : List UInt8} (h : ch ∉ line) :
    columns ch line = [line] := by
  rw [columns, if_neg fun hl => h (List.mem_of_getLast? hl), List.splitOn_eq_singleton h]

theorem columns_concat {ch : UInt8} {tmp : List UInt8} (h : ch ∉ tmp) :
    columns ch (tmp ++ [ch]) = [tmp] := by
  rw [columns, if_pos (by simp), List.splitOn_append_cons_self_of_not_mem h]
  simp

theorem columns_append {ch : UInt8} {tmp rest : List UInt8} (h : ch ∉ tmp) (hr : rest ≠ []) :
    columns ch (tmp ++ ch :: rest) = tmp :: columns ch rest := by
  have hl : (tmp ++ ch :: rest).getLast? = rest.getLast? := by
    rw [List.getLast?_append, List.getLast?_cons]
    cases hg : rest.getLast? with
    | none => exact absurd (List.getLast?_eq_none_iff.mp hg) hr
    | some b => rfl
  rw [columns, columns, hl, List.splitOn_append_cons_self_of_not_mem h]
  split
  · rw [List.dropLast_cons_of_ne_nil (List.splitOn_ne_nil _ _)]
  · rfl

theorem columns_ne_nil {ch : UInt8} {line : List UInt8} (h : line ≠ []) : columns ch line ≠ [] := by
  unfold columns
  split
  · rename_i hl
    obtain ⟨tmp, rfl⟩ := List.getLast?_eq_some_iff.mp hl
    rw [List.splitOn_append_cons_self, List.splitOn_nil, List.dropLast_concat]
    exact List.splitOn_ne_nil ch tmp
  · exact List.splitOn_ne_nil ch line

theorem split_of_findIdx? {ch : UInt8} {text : List UInt8} {k : Nat}
    (h : text.findIdx? (· == ch) = some k) :
    ∃ tmp rest, text = tmp ++ ch :: rest ∧ tmp.length = k ∧ ch ∉ tmp := by
  obtain ⟨hk, hc, hlt⟩ := List.findIdx?_eq_some_iff_getElem.mp h
  refine ⟨text.take k, text.drop (k + 1), ?_, by simp [hk.le], ?_⟩
  · rw [← eq_of_beq hc, List.getElem_cons_drop, List.take_append_drop]
  · intro hm
    obtain ⟨i, hi, he⟩ := List.mem_iff_getElem.mp hm
    rw [List.length_take] at hi
    rw [List.getElem_take] at he
    exact hlt i (by omega) (by simp [he])

section
variable {npos : Nat} {input : List UInt8} {ch : UInt8}

theorem stop_of_none (hn : npos % 2 ^ 32 = 2 ^ 32 - 1) (hlen : input.length < 2 ^ 32 - 1)
    {pos : Nat} (h : (input.drop pos).findIdx? (· == ch) = none) :
    input.length ≤ stop npos input ch pos ∧ stop npos input ch pos < 2 ^ 32 := by
  have hf : find npos input ch pos = npos := by rw [find, h]
  simp only [stop, hf, u32, hn]
  by_cases hc : 2 ^ 32 - 1 = npos
  · rw [if_pos hc]
    omega
  · rw [if_neg hc]
    omega

theorem stop_of_some (hlen : input.length < 2 ^ 32 - 1) (hn : npos % 2 ^ 32 = 2 ^ 32 - 1)
    {pos k : Nat} (hk : pos + k < input.length)
    (h : (input.drop pos).findIdx? (· == ch) = some k) : stop npos input ch pos = pos + k := by
  have hf : find npos input ch pos = pos + k := by rw [find, h]
  have hu : u32 (pos + k) = pos + k := by simp only [u32]; omega
  rw [stop, hf, hu]
  exact if_neg (by omega)

theorem substr_eq {pos p : Nat} (hpos : pos ≤ p) (hle : pos ≤ input.length) (hp : p < 2 ^ 32) :
    substr input pos (u32 (p + 2 ^ 32 - pos)) = some ((input.drop pos).take (p - pos)) := by
  have hu : u32 (p + 2 ^ 32 - pos) = p - pos := by simp only [u32]; omega
  rw [substr, if_pos hle, hu]

/-- The loop from a position inside the line splits what is left of it. -/
theorem splitLoop_eq (hn : npos % 2 ^ 32 = 2 ^ 32 - 1) (hlen : input.length < 2 ^ 32 - 1)
    {fuel pos : Nat} {result : List (List UInt8)} (hpos : pos < input.length)
    (hfuel : input.length - pos < fuel) :
    splitLoop npos input ch fuel pos pos result = some (result ++ columns ch (input.drop pos)) := by
  induction fuel generalizing pos result with
  | zero => omega
  | succ fuel ih =>
    have hsize : last npos input = input.length - 1 := if_neg (by omega)
    unfold splitLoop
    cases hf : (input.drop pos).findIdx? (· == ch) with
    | none =>
      have hch : ch ∉ input.drop pos := fun hc => by
        simpa using List.findIdx?_eq_none_iff.mp hf ch hc
      obtain ⟨hlo, hhi⟩ := stop_of_none hn hlen hf
      simp only [substr_eq (show pos ≤ stop npos input ch pos by omega) hpos.le hhi, hsize]
      rw [if_pos (by omega), columns_of_not_mem hch,
        List.take_of_length_le (by rw [List.length_drop]; omega)]
    | some k =>
      obtain ⟨tmp, rest, he, hk, htmp⟩ := split_of_findIdx? hf
      have hl : input.length - pos = tmp.length + (rest.length + 1) := by
        simpa using congrArg List.length he
      have hstop : stop npos input ch pos = pos + k := stop_of_some hlen hn (by omega) hf
      subst hk
      have hsub : substr input pos (u32 (pos + tmp.length + 2 ^ 32 - pos)) = some tmp := by
        rw [substr_eq (by omega) hpos.le (by omega), he, Nat.add_sub_cancel_left, List.take_left]
      simp only [hstop, hsub, hsize, he]
      by_cases hr : rest = []
      · subst hr
        rw [if_pos (by simp at hl; omega), columns_concat htmp]
      · have hr' : 0 < rest.length := List.length_pos_iff.mpr hr
        have hnext : u32 (pos + tmp.length + 1) = pos + tmp.length + 1 := by
          simp only [u32]; omega
        have hdrop : input.drop (pos + tmp.length + 1) = rest := by
          rw [Nat.add_assoc, ← List.drop_drop, he]
          simp
        rw [if_neg (by omega), hnext, if_pos (by omega), ih (by omega) (by omega), hdrop,
          columns_append htmp hr]
        simp

theorem SpliteByChar_eq (hn : npos % 2 ^ 32 = 2 ^ 32 - 1) (hne : input ≠ [])
    (hlen : input.length < 2 ^ 32 - 1) :
    SpliteByChar npos input ch = some (columns ch input) := by
  have hpos : 0 < input.length := List.length_pos_iff.mpr hne
  rw [SpliteByChar, splitLoop_eq hn hlen hpos (by omega)]
  simp

end

end TextMining.StringTool
