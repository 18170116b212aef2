import TextMining.Lib.HashMap

/-!
# Numbered records

A list of records and a map that leads each key to the number of its record. A
new key gets the next number; a record is changed in place. So a change for
one key leaves the records of the others.
-/

namespace TextMining.Registry

universe u v

variable {K : Type u} {V : Type v} [DecidableEq K]

def find (index : HashMap K Nat) (records : List V) (k : K) : Option V :=
  (index.lookup k).bind fun i => records[i]?

/-- Different keys have different records. -/
structure Numbered (index : HashMap K Nat) (records : List V) : Prop where
  range : ∀ k i, index.lookup k = some i → i < records.length
  inj : ∀ k k' i, index.lookup k = some i → index.lookup k' = some i → k = k'

theorem numbered_empty : Numbered (∅ : HashMap K Nat) ([] : List V) where
  range k i h := by
    rw [AList.lookup_empty] at h
    cases h
  inj k k' i h := by
    rw [AList.lookup_empty] at h
    cases h

section
variable {index : HashMap K Nat} {records : List V} {k k' : K} {i : Nat}
  (h : Numbered index records)
include h

theorem Numbered.find_eq_none : find index records k = none ↔ k ∉ index := by
  rw [find, ← AList.lookup_eq_none]
  cases hl : index.lookup k with
  | none => simp
  | some i => simp [List.getElem?_eq_getElem (h.range k i hl)]

theorem Numbered.push (hk : k ∉ index) (v : V) :
    Numbered (index.insert k records.length) (records ++ [v]) := by
  have hlookup : ∀ j i, (index.insert k records.length).lookup j = some i →
      j = k ∧ i = records.length ∨ j ≠ k ∧ index.lookup j = some i := by
    intro j i hj
    by_cases hjk : j = k
    · subst hjk
      rw [AList.lookup_insert, Option.some.injEq] at hj
      exact .inl ⟨rfl, hj.symm⟩
    · rw [AList.lookup_insert_ne hjk] at hj
      exact .inr ⟨hjk, hj⟩
  refine ⟨fun j i hj => ?_, fun j j' i hj hj' => ?_⟩
  · rw [List.length_append, List.length_singleton]
    rcases hlookup j i hj with ⟨-, rfl⟩ | ⟨-, hj⟩
    · exact Nat.lt_succ_self _
    · exact Nat.lt_succ_of_lt (h.range j i hj)
  · rcases hlookup j i hj with ⟨hjk, hi⟩ | ⟨-, hj⟩
    · rcases hlookup j' i hj' with ⟨hjk', -⟩ | ⟨-, hj'⟩
      · exact hjk.trans hjk'.symm
      · exact absurd hi (Nat.ne_of_lt (h.range j' i hj'))
    · rcases hlookup j' i hj' with ⟨-, hi⟩ | ⟨-, hj'⟩
      · exact absurd hi (Nat.ne_of_lt (h.range j i hj))
      · exact h.inj j j' i hj hj'

theorem Numbered.modify (i : Nat) (f : V → V) : Numbered index (records.modify i f) :=
  ⟨fun j n hj => by rw [List.length_modify]; exact h.range j n hj, h.inj⟩

omit h in
theorem find_push_self (index : HashMap K Nat) (records : List V) (k : K) (v : V) :
    find (index.insert k records.length) (records ++ [v]) k = some v := by
  rw [find, AList.lookup_insert, Option.bind_some, List.getElem?_concat_length]

theorem Numbered.find_push_ne (hk : k' ≠ k) (v : V) :
    find (index.insert k records.length) (records ++ [v]) k' = find index records k' := by
  rw [find, AList.lookup_insert_ne hk, find]
  cases hl : index.lookup k' with
  | none => rfl
  | some j => exact List.getElem?_append_left (h.range k' j hl)

omit h in
theorem find_modify_self (hl : index.lookup k = some i) (f : V → V) :
    find index (records.modify i f) k = (find index records k).map f := by
  rw [find, find, hl, Option.bind_some, Option.bind_some, List.getElem?_modify_eq]
  rfl

theorem Numbered.find_modify_ne (hl : index.lookup k = some i) (hk : k' ≠ k) (f : V → V) :
    find index (records.modify i f) k' = find index records k' := by
  rw [find, find]
  cases hl' : index.lookup k' with
  | none => rfl
  | some j =>
    have hij : i ≠ j := fun he => hk (h.inj k' k j hl' (he ▸ hl))
    exact List.getElem?_modify_ne _ _ hij

end

-- ---------------------------------------------------------------------------
-- Numbered keys
-- ---------------------------------------------------------------------------

def Names (index : HashMap K Nat) (keys : List K) : Prop :=
  ∀ k i, index.lookup k = some i ↔ keys[i]? = some k

section
variable {index : HashMap K Nat} {keys : List K} {k : K}

theorem names_empty : Names (∅ : HashMap K Nat) [] := fun k i => by
  rw [AList.lookup_empty, List.getElem?_nil]
  exact iff_of_false nofun nofun

variable (h : Names index keys)
include h

theorem Names.mem : k ∈ index ↔ k ∈ keys := by
  rw [List.mem_iff_getElem?]
  constructor
  · intro hk
    obtain ⟨i, hi⟩ := HashMap.exists_of_mem hk
    exact ⟨i, (h k i).mp hi⟩
  · rintro ⟨i, hi⟩
    exact HashMap.mem_of_lookup ((h k i).mpr hi)

theorem Names.nodup : keys.Nodup := by
  rw [List.nodup_iff_getElem?_ne_getElem?]
  intro i j hij hj he
  rw [List.getElem?_eq_getElem hj] at he
  have hi := (h keys[j] i).mpr he
  have hj := (h keys[j] j).mpr (List.getElem?_eq_getElem hj)
  exact absurd (Option.some.inj (hi.symm.trans hj)) (Nat.ne_of_lt hij)

theorem Names.push (hk : k ∉ index) : Names (index.insert k keys.length) (keys ++ [k]) := by
  intro j i
  by_cases hj : j = k
  · subst hj
    rw [AList.lookup_insert, Option.some.injEq]
    constructor
    · rintro rfl
      exact List.getElem?_concat_length
    · intro hi
      rcases Nat.lt_trichotomy i keys.length with hlt | heq | hlt
      · rw [List.getElem?_append_left hlt] at hi
        exact absurd (h.mem.mpr (List.mem_of_getElem? hi)) hk
      · exact heq.symm
      · rw [List.getElem?_eq_none (by rw [List.length_append]; exact hlt)] at hi
        cases hi
  · rw [AList.lookup_insert_ne hj, h j i]
    constructor
    · intro hi
      obtain ⟨hlt, -⟩ := List.getElem?_eq_some_iff.mp hi
      rw [List.getElem?_append_left hlt, hi]
    · intro hi
      rcases Nat.lt_trichotomy i keys.length with hlt | heq | hlt
      · rwa [List.getElem?_append_left hlt] at hi
      · rw [heq, List.getElem?_concat_length, Option.some.injEq] at hi
        exact absurd hi.symm hj
      · rw [List.getElem?_eq_none (by rw [List.length_append]; exact hlt)] at hi
        cases hi

end

end TextMining.Registry
