import TextMining.Lib.OrdSet
import Mathlib.Algebra.GroupWithZero.Nat
import Mathlib.Data.List.Induction
import Mathlib.Data.List.Lex
import Mathlib.Data.List.Perm.Subperm

/-!
# Ordered maps as ascending lists of entries

The order of `entries` is the order in which an ordered map is iterated. Two
maps with the same lookups are equal. Strings are ordered by their bytes.
-/

namespace TextMining

instance instLinearOrderUInt8 : LinearOrder UInt8 where
  le_refl := UInt8.le_refl
  le_trans _ _ _ := UInt8.le_trans
  le_antisymm _ _ := UInt8.le_antisymm
  le_total := UInt8.le_total
  lt_iff_le_not_ge a b := by
    simp only [UInt8.lt_iff_toNat_lt, UInt8.le_iff_toNat_le]
    exact lt_iff_le_not_ge
  toDecidableLE := inferInstance

instance instLinearOrderInt32 : LinearOrder Int32 where
  le_refl := Int32.le_refl
  le_trans _ _ _ := Int32.le_trans
  le_antisymm _ _ := Int32.le_antisymm
  le_total := Int32.le_total
  lt_iff_le_not_ge a b := by
    simp only [Int32.lt_iff_toInt_lt, Int32.le_iff_toInt_le]
    exact lt_iff_le_not_ge
  toDecidableLE := inferInstance

instance instLinearOrderUInt32 : LinearOrder UInt32 where
  le_refl := UInt32.le_refl
  le_trans _ _ _ := UInt32.le_trans
  le_antisymm _ _ := UInt32.le_antisymm
  le_total := UInt32.le_total
  lt_iff_le_not_ge a b := by
    simp only [UInt32.lt_iff_toNat_lt, UInt32.le_iff_toNat_le]
    exact lt_iff_le_not_ge
  toDecidableLE := inferInstance

universe u v

structure OrdMap (K : Type u) (V : Type v) [LinearOrder K] where
  entries : List (K × V)
  sorted : (entries.map Prod.fst).Pairwise (· < ·)

namespace OrdMap

variable {K : Type u} {V : Type v} [LinearOrder K]

theorem pairwise_nil : (([] : List (K × V)).map Prod.fst).Pairwise (· < ·) := .nil

def empty : OrdMap K V := ⟨[], pairwise_nil⟩

def size (m : OrdMap K V) : Nat := m.entries.length

def keys (m : OrdMap K V) : List K := m.entries.map Prod.fst

def lookup (m : OrdMap K V) (k : K) : Option V := (m.entries.find? fun e => e.1 = k).map Prod.snd

instance : Membership K (OrdMap K V) := ⟨fun m k => k ∈ m.keys⟩

instance (k : K) (m : OrdMap K V) : Decidable (k ∈ m) := OrdSet.decidableMem k m.keys

def insertEntry (k : K) (v : V) : List (K × V) → List (K × V)
  | [] => [(k, v)]
  | e :: es =>
    if k < e.1 then (k, v) :: e :: es
    else if e.1 < k then e :: insertEntry k v es
    else (k, v) :: es

theorem mem_keys_insertEntry {k k' : K} {v : V} {es : List (K × V)} :
    k' ∈ (insertEntry k v es).map Prod.fst ↔ k' = k ∨ k' ∈ es.map Prod.fst := by
  induction es with
  | nil => simp [insertEntry]
  | cons e es ih =>
    unfold insertEntry
    split
    · simp
    · split
      · simp only [List.map_cons, List.mem_cons, ih]
        exact or_left_comm
      · rename_i hlt hgt
        have he : e.1 = k := le_antisymm (not_lt.mp hlt) (not_lt.mp hgt)
        simp [he]

theorem pairwise_insertEntry {k : K} {v : V} {es : List (K × V)}
    (h : (es.map Prod.fst).Pairwise (· < ·)) :
    ((insertEntry k v es).map Prod.fst).Pairwise (· < ·) := by
  induction es with
  | nil => simp [insertEntry]
  | cons e es ih =>
    obtain ⟨he, hes⟩ := List.pairwise_cons.mp h
    unfold insertEntry
    split
    · rename_i hlt
      refine List.pairwise_cons.mpr ⟨fun k' hk' => ?_, h⟩
      rcases List.mem_cons.mp hk' with rfl | hk'
      · exact hlt
      · exact hlt.trans (he k' hk')
    · split
      · rename_i hgt
        refine List.pairwise_cons.mpr ⟨fun k' hk' => ?_, ih hes⟩
        rcases mem_keys_insertEntry.mp hk' with rfl | hk'
        · exact hgt
        · exact he k' hk'
      · rename_i hlt hgt
        have hk : e.1 = k := le_antisymm (not_lt.mp hlt) (not_lt.mp hgt)
        exact List.pairwise_cons.mpr ⟨hk ▸ he, hes⟩

def insert (m : OrdMap K V) (k : K) (v : V) : OrdMap K V :=
  ⟨insertEntry k v m.entries, pairwise_insertEntry m.sorted⟩

/-- `insert`, which keeps the value of a key that is present. -/
def insertNew (m : OrdMap K V) (k : K) (v : V) : OrdMap K V := if k ∈ m then m else m.insert k v

def updateAll (f : V → Option V) (m : OrdMap K V) : Option (OrdMap K V) :=
  m.entries.foldlM (fun n e => (f e.2).map fun v => n.insert e.1 v) m

def erase (m : OrdMap K V) (k : K) : OrdMap K V :=
  ⟨m.entries.filter fun e => e.1 ≠ k, m.sorted.sublist (List.filter_sublist.map Prod.fst)⟩

def modify (m : OrdMap K V) (k : K) (f : V → V) : OrdMap K V :=
  match m.lookup k with
  | none => m
  | some v => m.insert k (f v)

-- ---------------------------------------------------------------------------
-- Lookups
-- ---------------------------------------------------------------------------

variable {m : OrdMap K V} {k : K}

theorem find?_insertEntry (k k' : K) (v : V) (es : List (K × V)) :
    (insertEntry k v es).find? (fun e => e.1 = k') =
      if k' = k then some (k, v) else es.find? fun e => e.1 = k' := by
  induction es with
  | nil =>
    by_cases hk : k' = k
    · simp [insertEntry, hk]
    · simp [insertEntry, hk, Ne.symm hk]
  | cons e es ih =>
    unfold insertEntry
    by_cases hk : k' = k
    · subst hk
      rw [if_pos rfl] at ih ⊢
      split
      · simp
      · split
        · rename_i hgt
          rw [List.find?_cons_of_neg (by simpa using ne_of_lt hgt), ih]
        · simp
    · rw [if_neg hk] at ih ⊢
      split
      · rw [List.find?_cons_of_neg (by simpa using Ne.symm hk)]
      · split
        · rw [List.find?_cons, List.find?_cons, ih]
        · rename_i hlt hgt
          have he : e.1 = k := le_antisymm (not_lt.mp hlt) (not_lt.mp hgt)
          rw [List.find?_cons_of_neg (by simpa using Ne.symm hk),
            List.find?_cons_of_neg (by simpa [he] using Ne.symm hk)]

@[simp] theorem lookup_empty (k : K) : (empty : OrdMap K V).lookup k = none := rfl

theorem lookup_insert (m : OrdMap K V) (k k' : K) (v : V) :
    (m.insert k v).lookup k' = if k' = k then some v else m.lookup k' := by
  rw [lookup, insert, find?_insertEntry]
  split <;> rfl

@[simp] theorem lookup_insert_self (m : OrdMap K V) (k : K) (v : V) :
    (m.insert k v).lookup k = some v := by rw [lookup_insert, if_pos rfl]

theorem lookup_insert_ne {k' : K} (h : k' ≠ k) (m : OrdMap K V) (v : V) :
    (m.insert k v).lookup k' = m.lookup k' := by rw [lookup_insert, if_neg h]

theorem mem_def : k ∈ m ↔ k ∈ m.keys := Iff.rfl

theorem nodup_keys (m : OrdMap K V) : m.keys.Nodup := m.sorted.imp ne_of_lt

theorem mem_entries {v : V} : (k, v) ∈ m.entries ↔ m.lookup k = some v := by
  rw [lookup]
  constructor
  · intro h
    cases hf : m.entries.find? fun e => e.1 = k with
    | none => exact absurd (decide_eq_true rfl) (List.find?_eq_none.mp hf _ h)
    | some e =>
      have he : e.1 = k := by simpa using List.find?_some hf
      have heq : e = (k, v) :=
        List.inj_on_of_nodup_map m.nodup_keys (List.mem_of_find?_eq_some hf) h he
      rw [heq, Option.map_some]
  · intro h
    obtain ⟨e, hf, rfl⟩ := Option.map_eq_some_iff.mp h
    have he : e.1 = k := by simpa using List.find?_some hf
    exact he ▸ List.mem_of_find?_eq_some hf

theorem mem_iff : k ∈ m ↔ ∃ v, m.lookup k = some v := by
  simp only [mem_def, keys, List.mem_map, Prod.exists, exists_and_right, exists_eq_right,
    mem_entries]

theorem lookup_eq_none : m.lookup k = none ↔ k ∉ m := by
  rw [mem_iff, Option.eq_none_iff_forall_ne_some]
  exact not_exists.symm

theorem mem_insert {k' : K} {v : V} : k' ∈ m.insert k v ↔ k' = k ∨ k' ∈ m := mem_keys_insertEntry

theorem insertNew_of_notMem (h : k ∉ m) (v : V) : m.insertNew k v = m.insert k v := if_neg h

theorem lookup_insertNew (m : OrdMap K V) (k k' : K) (v : V) :
    (m.insertNew k v).lookup k' = (m.lookup k').or (if k' = k then some v else none) := by
  rw [insertNew]
  split
  · rename_i hm
    obtain ⟨w, hw⟩ := mem_iff.mp hm
    split
    · rename_i hk
      rw [hk, hw, Option.some_or]
    · rw [Option.or_none]
  · rename_i hm
    rw [lookup_insert]
    split
    · rename_i hk
      rw [hk, lookup_eq_none.mpr hm, Option.none_or]
    · rw [Option.or_none]

theorem updateAll_spec {f : V → Option V} (h : ∀ k v, m.lookup k = some v → ∃ w, f v = some w) :
    ∃ n, m.updateAll f = some n ∧ ∀ k, n.lookup k = (m.lookup k).bind f := by
  have hrun : ∀ (es : List (K × V)), (∀ e ∈ es, e ∈ m.entries) → (es.map Prod.fst).Nodup →
      ∀ n : OrdMap K V, (∀ e ∈ es, n.lookup e.1 = some e.2) →
      ∃ k, es.foldlM (fun n e => (f e.2).map fun v => n.insert e.1 v) n = some k ∧
        ∀ c, k.lookup c = if c ∈ es.map Prod.fst then (n.lookup c).bind f else n.lookup c := by
    intro es
    induction es with
    | nil => exact fun _ _ n _ => ⟨n, rfl, fun c => rfl⟩
    | cons e es ih =>
      intro hes hnd n hn
      obtain ⟨he, hnd⟩ := List.nodup_cons.mp hnd
      obtain ⟨w, hw⟩ := h e.1 e.2 (mem_entries.mp (hes e List.mem_cons_self))
      obtain ⟨k, hk, hlookup⟩ := ih (fun x hx => hes x (List.mem_cons_of_mem _ hx)) hnd
        (n.insert e.1 w) fun x hx => by
          have hne : x.1 ≠ e.1 := fun hxe => he (hxe ▸ List.mem_map_of_mem hx)
          rw [lookup_insert_ne hne]
          exact hn x (List.mem_cons_of_mem _ hx)
      refine ⟨k, ?_, fun c => ?_⟩
      · rw [List.foldlM_cons, hw, Option.map_some]
        exact hk
      · rw [hlookup, lookup_insert, List.map_cons]
        by_cases hc : c = e.1
        · rw [if_neg (hc ▸ he), if_pos hc, if_pos (hc ▸ List.mem_cons_self), hc,
            hn e List.mem_cons_self, Option.bind_some, hw]
        · rw [if_neg hc]
          simp only [List.mem_cons, hc, false_or]
  obtain ⟨n, hn, hlookup⟩ := hrun m.entries (fun _ he => he) m.nodup_keys m
    fun e he => mem_entries.mp he
  refine ⟨n, hn, fun k => (hlookup k).trans ?_⟩
  split
  · rfl
  · rename_i hk
    rw [lookup_eq_none.mpr hk, Option.bind_none]

theorem mem_of_lookup_map {n : OrdMap K V} {f : V → V}
    (h : ∀ k, n.lookup k = m.lookup k ∨ n.lookup k = (m.lookup k).map f) (k : K) :
    k ∈ n ↔ k ∈ m := by
  rw [← not_iff_not, ← lookup_eq_none, ← lookup_eq_none]
  rcases h k with hk | hk
  · rw [hk]
  · rw [hk, Option.map_eq_none_iff]

theorem size_congr {W : Type*} {n : OrdMap K W} (h : ∀ k, k ∈ m ↔ k ∈ n) : m.size = n.size := by
  have hp : m.keys.Perm n.keys :=
    (List.perm_ext_iff_of_nodup m.nodup_keys n.nodup_keys).mpr h
  simpa only [keys, List.length_map, size] using hp.length_eq

theorem size_le {W : Type*} {n : OrdMap K W} (h : ∀ k ∈ m, k ∈ n) : m.size ≤ n.size := by
  simpa only [keys, List.length_map, size] using (m.nodup_keys.subperm h).length_le

theorem size_insert (h : k ∉ m) (v : V) : (m.insert k v).size = m.size + 1 := by
  have hp : (m.insert k v).keys.Perm (k :: m.keys) := by
    refine (List.perm_ext_iff_of_nodup (nodup_keys _) (List.nodup_cons.mpr ⟨h, m.nodup_keys⟩)).mpr
      fun k' => ?_
    rw [List.mem_cons]
    exact mem_insert
  simpa only [keys, List.length_map, List.length_cons, size] using hp.length_eq

theorem sum_insertEntry {k : K} {n : Nat} {es : List (K × Nat)}
    (h : (es.map Prod.fst).Pairwise (· < ·)) :
    ((insertEntry k n es).map Prod.snd).sum +
        ((es.find? fun e => e.1 = k).map Prod.snd).getD 0 = (es.map Prod.snd).sum + n := by
  induction es with
  | nil => simp [insertEntry]
  | cons e es ih =>
    obtain ⟨he, hes⟩ := List.pairwise_cons.mp h
    unfold insertEntry
    split
    · rename_i hlt
      have hnone : (e :: es).find? (fun e => e.1 = k) = none := by
        rw [List.find?_eq_none]
        intro e' he'
        rcases List.mem_cons.mp he' with rfl | he'
        · simpa using ne_of_gt hlt
        · simpa using ne_of_gt (hlt.trans (he e'.1 (List.mem_map_of_mem he')))
      rw [hnone]
      simp only [List.map_cons, List.sum_cons, Option.map_none, Option.getD_none]
      omega
    · split
      · rename_i hgt
        have hrest := ih hes
        rw [List.find?_cons_of_neg (by simpa using ne_of_lt hgt)]
        simp only [List.map_cons, List.sum_cons]
        omega
      · rename_i hlt hgt
        have hk : e.1 = k := le_antisymm (not_lt.mp hlt) (not_lt.mp hgt)
        rw [List.find?_cons_of_pos (by simpa using hk)]
        simp only [List.map_cons, List.sum_cons, Option.map_some, Option.getD_some]
        omega

theorem sum_insert (m : OrdMap K Nat) (k : K) (n : Nat) :
    ((m.insert k n).entries.map Prod.snd).sum + (m.lookup k).getD 0 =
      (m.entries.map Prod.snd).sum + n := sum_insertEntry m.sorted

theorem lookup_erase (m : OrdMap K V) (k k' : K) :
    (m.erase k).lookup k' = if k' = k then none else m.lookup k' := by
  refine Option.ext fun v => ?_
  rw [← mem_entries, erase, List.mem_filter, mem_entries, decide_eq_true_eq]
  split
  · rename_i hk
    simp only [hk, ne_eq, not_true_eq_false, and_false, reduceCtorEq]
  · rename_i hk
    exact and_iff_left hk

theorem lookup_modify (m : OrdMap K V) (k k' : K) (f : V → V) :
    (m.modify k f).lookup k' = if k' = k then (m.lookup k).map f else m.lookup k' := by
  rw [modify]
  cases h : m.lookup k with
  | none =>
    by_cases hk : k' = k
    · rw [if_pos hk, hk, h, Option.map_none]
    · rw [if_neg hk]
  | some v => exact lookup_insert m k k' (f v)

theorem mem_modify {k' : K} {f : V → V} : k' ∈ m.modify k f ↔ k' ∈ m := by
  unfold modify
  cases h : m.lookup k with
  | none => exact Iff.rfl
  | some v =>
    simp only [mem_insert, or_iff_right_iff_imp]
    rintro rfl
    exact mem_iff.mpr ⟨v, h⟩

theorem size_modify (m : OrdMap K V) (k : K) (f : V → V) : (m.modify k f).size = m.size :=
  size_congr fun _ => mem_modify

@[ext] theorem ext {m n : OrdMap K V} (h : ∀ k, m.lookup k = n.lookup k) : m = n := by
  have hmem : ∀ e, e ∈ m.entries ↔ e ∈ n.entries := fun (k, v) => by
    rw [mem_entries, mem_entries, h]
  have hp : m.entries.Perm n.entries :=
    (List.perm_ext_iff_of_nodup (List.Nodup.of_map _ m.nodup_keys)
      (List.Nodup.of_map _ n.nodup_keys)).mpr hmem
  have hm := List.pairwise_map.mp m.sorted
  have hn := List.pairwise_map.mp n.sorted
  have he : m.entries = n.entries :=
    hp.eq_of_pairwise (fun a b _ _ hab hba => (lt_asymm hab hba).elim) hm hn
  cases m
  cases n
  simpa using he

-- ---------------------------------------------------------------------------
-- Reading entries back
-- ---------------------------------------------------------------------------

def insertAll (m : OrdMap K V) (es : List (K × V)) : OrdMap K V :=
  es.foldl (fun m e => m.insertNew e.1 e.2) m

theorem lookup_insertAll {es : List (K × V)} (hd : (es.map Prod.fst).Nodup)
    (hm : ∀ e ∈ es, e.1 ∉ m) (k : K) :
    (m.insertAll es).lookup k = ((es.find? fun e => e.1 = k).map Prod.snd).or (m.lookup k) := by
  induction es generalizing m with
  | nil => rfl
  | cons e es ih =>
    obtain ⟨he, hd⟩ := List.nodup_cons.mp hd
    have hstep : m.insertAll (e :: es) = (m.insert e.1 e.2).insertAll es := by
      rw [insertAll, List.foldl_cons, insertNew_of_notMem (hm e (by simp))]
      rfl
    rw [hstep, ih hd fun e' he' => by
      rw [mem_insert, not_or]
      exact ⟨fun hc => he (hc ▸ List.mem_map_of_mem he'), hm e' (by simp [he'])⟩, lookup_insert]
    by_cases hk : k = e.1
    · subst hk
      have hnone : es.find? (fun e' => e'.1 = e.1) = none := by
        refine List.find?_eq_none.mpr fun e' he' => ?_
        simpa using fun hc : e'.1 = e.1 => he (hc ▸ List.mem_map_of_mem he')
      simp [hnone]
    · rw [if_neg hk, List.find?_cons_of_neg (by simpa using Ne.symm hk)]

theorem lookup_modifyEach {W : Type*} (f : W → V → V) {es : List (K × W)}
    (hd : (es.map Prod.fst).Nodup) (m : OrdMap K V) (k : K) :
    (es.foldl (fun m e => m.modify e.1 (f e.2)) m).lookup k =
      match es.find? fun e => e.1 = k with
      | none => m.lookup k
      | some e => (m.lookup k).map (f e.2) := by
  induction es generalizing m with
  | nil => rfl
  | cons e es ih =>
    obtain ⟨he, hd⟩ := List.nodup_cons.mp hd
    rw [List.foldl_cons, ih hd]
    by_cases hk : e.1 = k
    · subst hk
      have hnone : es.find? (fun e' => e'.1 = e.1) = none := by
        refine List.find?_eq_none.mpr fun e' he' => ?_
        simpa using fun hc : e'.1 = e.1 => he (hc ▸ List.mem_map_of_mem he')
      rw [hnone, List.find?_cons_of_pos (by simp)]
      simp only [lookup_modify, if_true]
    · rw [List.find?_cons_of_neg (by simpa using hk), lookup_modify, if_neg (Ne.symm hk)]

theorem lookup_modifyAll {W : Type*} (f : W → V → V) (n : OrdMap K W) (m : OrdMap K V) (k : K) :
    (n.entries.foldl (fun m e => m.modify e.1 (f e.2)) m).lookup k =
      (n.lookup k).elim (m.lookup k) fun w => (m.lookup k).map (f w) := by
  have hl : n.lookup k = (n.entries.find? fun e => e.1 = k).map Prod.snd := rfl
  rw [lookup_modifyEach f n.nodup_keys, hl]
  cases n.entries.find? fun e => e.1 = k with
  | none => rfl
  | some e => rfl

theorem insertAll_entries (m : OrdMap K V) : empty.insertAll m.entries = m := by
  refine ext fun k => ?_
  rw [lookup_insertAll m.nodup_keys fun e _ => List.not_mem_nil, lookup_empty, Option.or_none, lookup]

theorem insertAll_eq_foldl {es : List (K × V)} (hd : (es.map Prod.fst).Nodup)
    (hm : ∀ e ∈ es, e.1 ∉ m) : m.insertAll es = es.foldl (fun m e => m.insert e.1 e.2) m := by
  induction es generalizing m with
  | nil => rfl
  | cons e es ih =>
    obtain ⟨he, hd⟩ := List.nodup_cons.mp hd
    rw [insertAll, List.foldl_cons, insertNew_of_notMem (hm e List.mem_cons_self), List.foldl_cons]
    apply ih hd
    intro e' he'
    rw [mem_insert, not_or]
    exact ⟨fun hc => he (hc ▸ List.mem_map_of_mem he'), hm e' (List.mem_cons_of_mem e he')⟩

theorem foldl_insert_entries (m : OrdMap K V) :
    m.entries.foldl (fun m e => m.insert e.1 e.2) empty = m := by
  rw [← insertAll_eq_foldl m.nodup_keys fun _ _ => List.not_mem_nil, insertAll_entries]

theorem lookup_foldl_insert {E : Type*} (key : E → K) (val : E → V) {es : List E}
    (hd : (es.map key).Nodup) (m : OrdMap K V) {e : E} (he : e ∈ es) :
    (es.foldl (fun m e => m.insert (key e) (val e)) m).lookup (key e) = some (val e) := by
  induction es using List.reverseRecOn with
  | nil => cases he
  | append_singleton es x ih =>
    rw [List.map_append, List.nodup_append] at hd
    obtain ⟨hd, -, hne⟩ := hd
    rw [List.foldl_append, List.foldl_cons, List.foldl_nil, lookup_insert]
    rcases List.mem_append.mp he with he | he
    · rw [if_neg (hne _ (List.mem_map_of_mem he) _ List.mem_cons_self), ih hd he]
    · rw [List.mem_singleton.mp he, if_pos rfl]

end OrdMap

end TextMining
