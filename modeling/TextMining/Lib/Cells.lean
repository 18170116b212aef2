import Mathlib.Algebra.Group.Nat.Defs
import Mathlib.Data.List.Basic

/-!
# Checked memory

A block of memory is the list of its cells. An access outside the block and a
sum that does not fit an `int` are undefined, so they have no result.
-/

namespace TextMining.Cells

universe u

variable {α : Type u} {cells cells' : List α} {i j n : Nat} {a b : α}

def toInt (n : Nat) : Option Nat := if n < 2 ^ 31 then some n else none

@[simp] theorem toInt_of_lt (h : n < 2 ^ 31) : toInt n = some n := if_pos h

theorem eq_of_toInt {m : Nat} (h : toInt n = some m) : m = n := by
  rw [toInt] at h
  split at h
  · exact (Option.some.inj h).symm
  · cases h

def write (cells : List α) (i : Nat) (a : α) : Option (List α) :=
  if i < cells.length then some (cells.set i a) else none

def swap (cells : List α) (i j : Nat) : Option (List α) := do
  let temp ← cells[i]?
  let b ← cells[j]?
  return (cells.set i b).set j temp

theorem swap_eq (ha : cells[i]? = some a) (hb : cells[j]? = some b) :
    swap cells i j = some ((cells.set i b).set j a) := by
  simp [swap, ha, hb]

theorem swap_perm (h : swap cells i j = some cells') : cells'.Perm cells := by
  simp only [swap, Option.bind_eq_bind, Option.bind_eq_some_iff] at h
  obtain ⟨a, ha, b, hb, h⟩ := h
  cases h
  obtain ⟨hi, rfl⟩ := List.getElem?_eq_some_iff.mp ha
  obtain ⟨hj, rfl⟩ := List.getElem?_eq_some_iff.mp hb
  exact List.set_set_perm hi hj

theorem exists_swap (hi : i < cells.length) (hj : j < cells.length) :
    ∃ cells', swap cells i j = some cells' ∧ cells'[i]? = cells[j]? ∧ cells'[j]? = cells[i]? ∧
      ∀ k, k ≠ i → k ≠ j → cells'[k]? = cells[k]? := by
  refine ⟨_, swap_eq (List.getElem?_eq_getElem hi) (List.getElem?_eq_getElem hj), ?_, ?_, ?_⟩
  · by_cases hij : j = i
    · subst hij
      simp [hi]
    · rw [List.getElem?_set_ne hij, List.getElem?_set_self hi, List.getElem?_eq_getElem hj]
  · rw [List.getElem?_set_self (by simpa using hj), List.getElem?_eq_getElem hi]
  · intro k hki hkj
    rw [List.getElem?_set_ne hkj.symm, List.getElem?_set_ne hki.symm]

-- ---------------------------------------------------------------------------
-- A block among other cells
-- ---------------------------------------------------------------------------

variable (before after : List α)

theorem getElem?_frame (hi : i < cells.length) :
    (before ++ cells ++ after)[before.length + i]? = cells[i]? := by
  rw [List.append_assoc, List.getElem?_append_right (Nat.le_add_right _ _),
    Nat.add_sub_cancel_left, List.getElem?_append_left hi]

theorem set_frame (hi : i < cells.length) :
    (before ++ cells ++ after).set (before.length + i) a = before ++ cells.set i a ++ after := by
  rw [List.append_assoc, List.set_append_right _ _ (Nat.le_add_right _ _),
    Nat.add_sub_cancel_left, List.set_append_left _ _ hi, List.append_assoc]

theorem write_at (b : α) : write (before ++ b :: after) before.length a =
    some (before ++ a :: after) := by
  rw [write, if_pos (by simp)]
  simp

theorem swap_frame (hi : i < cells.length) (hj : j < cells.length) :
    swap (before ++ cells ++ after) (before.length + i) (before.length + j) =
      (swap cells i j).map fun cells => before ++ cells ++ after := by
  have ha := List.getElem?_eq_getElem hi
  have hb := List.getElem?_eq_getElem hj
  rw [swap_eq ((getElem?_frame before after hi).trans ha)
    ((getElem?_frame before after hj).trans hb), swap_eq ha hb, set_frame before after hi,
    set_frame before after (by simpa using hj), Option.map_some]

end TextMining.Cells
