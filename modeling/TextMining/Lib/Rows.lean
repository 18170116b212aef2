import Mathlib.Data.List.Basic

/-!
# Rows of fields

A line is a row of fields between separators. Some fields of a row can be
overwritten with those of another.
-/

namespace TextMining

variable {α : Type*}

abbrev Row (α : Type*) := List (List α)

namespace Row

def field (row : Row α) (i : Nat) : List α := row.getD i []

/-- No field has the separator, so the row can be read back from its line. -/
def Separable (sep : α) (row : Row α) : Prop := row ≠ [] ∧ ∀ f ∈ row, sep ∉ f

theorem splitOn_separable [BEq α] [LawfulBEq α] (sep : α) (line : List α) :
    Separable sep (line.splitOn sep) := by
  refine ⟨List.splitOn_ne_nil sep line, ?_⟩
  induction line with
  | nil => simp
  | cons x line ih =>
    rw [List.splitOn_cons_eq_if_modifyHead]
    split
    · intro f hf
      rcases List.mem_cons.mp hf with rfl | hf
      · exact List.not_mem_nil
      · exact ih f hf
    · rename_i hx
      obtain ⟨g, row, hrow⟩ := List.exists_cons_of_ne_nil (List.splitOn_ne_nil sep line)
      rw [hrow, List.modifyHead_cons]
      intro f hf
      rcases List.mem_cons.mp hf with rfl | hf
      · rw [List.mem_cons, not_or]
        exact ⟨fun he => hx (by simp [he]), ih g (by simp [hrow])⟩
      · exact ih f (by simp [hrow, hf])

theorem Separable.splitOn_intercalate [BEq α] [LawfulBEq α] {sep : α} {row : Row α}
    (h : Separable sep row) : ([sep].intercalate row).splitOn sep = row :=
  List.splitOn_intercalate sep h.2 h.1

theorem length_splitOn [BEq α] [LawfulBEq α] (sep : α) (line : List α) :
    (line.splitOn sep).length = line.count sep + 1 := by
  induction line with
  | nil => rfl
  | cons x line ih =>
    rw [List.splitOn_cons_eq_if_modifyHead, List.count_cons]
    split
    · rw [List.length_cons, ih]
    · rw [List.length_modifyHead, ih, Nat.add_zero]

theorem splitOn_eq_cons_cons [BEq α] [LawfulBEq α] {sep : α} {line key value : List α} {row : Row α}
    (h : line.splitOn sep = key :: value :: row) : ∃ rest, line = key ++ sep :: (value ++ rest) := by
  have hline : [sep].intercalate (line.splitOn sep) = line := List.intercalate_splitOn sep
  rw [h] at hline
  cases row with
  | nil => exact ⟨[], by simp [← hline, List.intercalate]⟩
  | cons field row =>
    exact ⟨sep :: [sep].intercalate (field :: row), by simp [← hline, List.intercalate]⟩

theorem splitOn_flatMap_concat [BEq α] [LawfulBEq α] {sep : α} {row : Row α}
    (h : ∀ f ∈ row, sep ∉ f) : (row.flatMap fun f => f ++ [sep]).splitOn sep = row ++ [[]] := by
  induction row with
  | nil => exact List.splitOn_nil sep
  | cons f row ih =>
    rw [List.flatMap_cons, List.append_assoc, List.singleton_append,
      List.splitOn_append_cons_self_of_not_mem (h f List.mem_cons_self),
      ih fun g hg => h g (List.mem_cons_of_mem f hg), List.cons_append]

/-- Assigns to the fields with the given numbers those of another row. -/
def overwrite (ids : List Nat) (src dst : Row α) : Row α :=
  ids.foldl (fun row i => row.set i (src.field i)) dst

@[simp] theorem length_overwrite (ids : List Nat) (src dst : Row α) :
    (overwrite ids src dst).length = dst.length := by
  induction ids generalizing dst with
  | nil => rfl
  | cons i ids ih => exact (ih _).trans List.length_set

theorem getElem?_overwrite (ids : List Nat) (src dst : Row α) (i : Nat) :
    (overwrite ids src dst)[i]? =
      if i ∈ ids ∧ i < dst.length then some (src.field i) else dst[i]? := by
  induction ids generalizing dst with
  | nil => simp [overwrite]
  | cons k ids ih =>
    have hstep : overwrite (k :: ids) src dst = overwrite ids src (dst.set k (src.field k)) := rfl
    rw [hstep, ih, List.length_set, List.getElem?_set]
    by_cases hk : k = i
    · subst hk
      by_cases hl : k < dst.length <;> simp [hl]
    · simp [hk, Ne.symm hk]

theorem field_overwrite {ids : List Nat} {src dst : Row α} {i : Nat} (h : i < dst.length) :
    (overwrite ids src dst).field i = if i ∈ ids then src.field i else dst.field i := by
  rw [field, List.getD_eq_getElem?_getD, getElem?_overwrite]
  by_cases hi : i ∈ ids
  · rw [if_pos ⟨hi, h⟩, if_pos hi, Option.getD_some]
  · rw [if_neg fun hc => hi hc.1, if_neg hi, field, List.getD_eq_getElem?_getD]

theorem Separable.field {sep : α} {row : Row α} (h : Separable sep row) (i : Nat) :
    sep ∉ row.field i := by
  rw [Row.field, List.getD_eq_getElem?_getD]
  cases hi : row[i]? with
  | none => exact List.not_mem_nil
  | some f => exact h.2 f (List.mem_of_getElem? hi)

theorem Separable.overwrite {sep : α} {src dst : Row α} (hs : Separable sep src)
    (hd : Separable sep dst) (ids : List Nat) : Separable sep (overwrite ids src dst) := by
  refine ⟨fun he => hd.1 (List.length_eq_zero_iff.mp ?_), fun f hf => ?_⟩
  · rw [← length_overwrite ids src dst, he, List.length_nil]
  · obtain ⟨i, hi⟩ := List.mem_iff_getElem?.mp hf
    rw [getElem?_overwrite] at hi
    split at hi
    · exact Option.some.inj hi ▸ hs.field i
    · exact hd.2 f (List.mem_of_getElem? hi)

theorem overwrite_comm {ids : List Nat} {src base new : Row α} (h : ∀ i ∈ ids, i < base.length) :
    overwrite ids (overwrite ids src base) new = overwrite ids src (overwrite ids base new) := by
  refine List.ext_getElem? fun i => ?_
  simp only [getElem?_overwrite, length_overwrite]
  split
  · rename_i hi
    rw [field_overwrite (h i hi.1), if_pos hi.1]
  · rfl

end Row

end TextMining
