import Mathlib.Data.List.Sort
import Mathlib.Order.Defs.LinearOrder

/-!
# Ordered sets as strictly ascending lists

The order of `elems` is the order in which an ordered set is iterated. Two
sets with the same members are equal.
-/

namespace TextMining

structure OrdSet (α : Type*) [LinearOrder α] where
  elems : List α
  sorted : elems.Pairwise (· < ·)

namespace OrdSet

variable {α : Type*} [LinearOrder α]

instance : Membership α (OrdSet α) := ⟨fun s x => x ∈ s.elems⟩

@[reducible] def decidableMem (x : α) (l : List α) : Decidable (x ∈ l) := inferInstance

instance (x : α) (s : OrdSet α) : Decidable (x ∈ s) := decidableMem x s.elems

def empty : OrdSet α := ⟨[], .nil⟩

theorem mem_def {x : α} {s : OrdSet α} : x ∈ s ↔ x ∈ s.elems := Iff.rfl

theorem pairwise_orderedInsert {x : α} {l : List α} (hl : l.Pairwise (· < ·)) (hx : x ∉ l) :
    (l.orderedInsert (· ≤ ·) x).Pairwise (· < ·) := by
  induction l with
  | nil => simp
  | cons y l ih =>
    obtain ⟨hy, hl⟩ := List.pairwise_cons.mp hl
    obtain ⟨hxy, hxl⟩ := not_or.mp (mt List.mem_cons.mpr hx)
    unfold List.orderedInsert
    split
    · rename_i hle
      have hlt : x < y := lt_of_le_of_ne hle hxy
      refine List.pairwise_cons.mpr ⟨?_, List.pairwise_cons.mpr ⟨hy, hl⟩⟩
      intro z hz
      rcases List.mem_cons.mp hz with rfl | hz
      · exact hlt
      · exact hlt.trans (hy z hz)
    · rename_i hle
      refine List.pairwise_cons.mpr ⟨?_, ih hl hxl⟩
      intro z hz
      rcases (List.mem_orderedInsert (· ≤ ·)).mp hz with rfl | hz
      · exact not_le.mp hle
      · exact hy z hz

def insert (x : α) (s : OrdSet α) : OrdSet α :=
  if h : x ∈ s.elems then s
  else ⟨s.elems.orderedInsert (· ≤ ·) x, pairwise_orderedInsert s.sorted h⟩

@[simp] theorem not_mem_empty (x : α) : x ∉ (empty : OrdSet α) := List.not_mem_nil

@[simp] theorem mem_insert {x y : α} {s : OrdSet α} : y ∈ s.insert x ↔ y = x ∨ y ∈ s := by
  unfold insert
  split
  · rename_i h
    refine ⟨.inr, ?_⟩
    rintro (rfl | hy)
    · exact h
    · exact hy
  · exact List.mem_orderedInsert (· ≤ ·)

theorem nodup (s : OrdSet α) : s.elems.Nodup := s.sorted.imp ne_of_lt

@[ext] theorem ext {s t : OrdSet α} (h : ∀ x, x ∈ s ↔ x ∈ t) : s = t := by
  obtain ⟨s, hs⟩ := s
  obtain ⟨t, ht⟩ := t
  have hp : s.Perm t := (List.perm_ext_iff_of_nodup (hs.imp ne_of_lt) (ht.imp ne_of_lt)).mpr h
  congr
  exact hp.eq_of_pairwise (fun a b _ _ hab hba => (lt_asymm hab hba).elim) hs ht

def insertAll (s : OrdSet α) (l : List α) : OrdSet α := l.foldl (fun s x => s.insert x) s

@[simp] theorem mem_insertAll {y : α} {s : OrdSet α} {l : List α} :
    y ∈ s.insertAll l ↔ y ∈ l ∨ y ∈ s := by
  induction l generalizing s with
  | nil => simp [insertAll]
  | cons x l ih =>
    have h : s.insertAll (x :: l) = (s.insert x).insertAll l := rfl
    rw [h, ih, mem_insert, List.mem_cons]
    tauto

theorem mem_foldl_insertAll {y : α} {s : OrdSet α} {ls : List (List α)} :
    y ∈ ls.foldl insertAll s ↔ y ∈ s ∨ ∃ l ∈ ls, y ∈ l := by
  induction ls generalizing s with
  | nil => simp
  | cons l ls ih =>
    rw [List.foldl_cons, ih, mem_insertAll, or_assoc, or_left_comm]
    simp

end OrdSet

end TextMining
