import Mathlib.Algebra.Group.Nat.Defs
import Mathlib.Data.List.AList
import Mathlib.Data.List.Induction
import Mathlib.Data.List.Perm.Subperm

/-!
# Hash maps

A hash map is an association list without repeated keys. The order in which
its entries are visited is left to the implementation, so every walk over one
is given an `IterOrder`. A sweep visits all entries once and erases those it
does not keep.
-/

namespace TextMining

universe u v

abbrev HashMap (K : Type u) (V : Type v) := AList fun _ : K => V

/-- The order in which each call visits the map at index `i`. -/
structure IterOrder (K : Type u) (V : Type v) where
  walk : Nat → HashMap K V → List (Σ _ : K, V)
  perm : ∀ i m, (walk i m).Perm m.entries

namespace HashMap

def values {K : Type u} {V : Type v} (m : HashMap K V) : List V := m.entries.map Sigma.snd

def size {K : Type u} {V : Type v} (m : HashMap K V) : Nat := m.entries.length

end HashMap

namespace IterOrder

def held (K : Type u) (V : Type v) : IterOrder K V := ⟨fun _ m => m.entries, fun _ _ => .refl _⟩

theorem nodup_walk {K : Type u} {V : Type v} (ord : IterOrder K V) (i : Nat) (m : HashMap K V) :
    ((ord.walk i m).map Sigma.fst).Nodup :=
  ((ord.perm i m).map Sigma.fst).nodup_iff.mpr m.nodupKeys

theorem mem_walk {K : Type u} {V : Type v} [DecidableEq K] (ord : IterOrder K V) {i : Nat}
    {m : HashMap K V} {e : Σ _ : K, V} : e ∈ ord.walk i m ↔ m.lookup e.1 = some e.2 := by
  rw [(ord.perm i m).mem_iff, ← Option.mem_def, AList.mem_lookup_iff]

end IterOrder

namespace HashMap

variable {K : Type u} {V : Type v} [DecidableEq K]

omit [DecidableEq K] in
@[simp] theorem values_empty : values (∅ : HashMap K V) = [] := rfl

omit [DecidableEq K] in
@[simp] theorem size_empty : size (∅ : HashMap K V) = 0 := rfl

omit [DecidableEq K] in
theorem values_perm {m : HashMap K V} {l : List (Σ _ : K, V)} (h : m.entries.Perm l) :
    m.values.Perm (l.map fun e => e.2) := h.map _

theorem values_insert {m : HashMap K V} {k : K} (v : V) (hk : k ∉ m) :
    values (m.insert k v) = v :: values m := by
  rw [values, AList.entries_insert_of_notMem hk, values, List.map_cons]

theorem size_insert {m : HashMap K V} {k : K} (v : V) (hk : k ∉ m) :
    size (m.insert k v) = size m + 1 := by
  rw [size, AList.entries_insert_of_notMem hk, size, List.length_cons]

/-- `insert`, which keeps the value of a key that is present. -/
def insertNew (m : HashMap K V) (k : K) (v : V) : HashMap K V :=
  if k ∈ m then m else m.insert k v

def insertAll (m : HashMap K V) (entries : List (Σ _ : K, V)) : HashMap K V :=
  entries.foldl (fun m e => m.insertNew e.1 e.2) m

theorem mem_values {m : HashMap K V} {v : V} : v ∈ values m ↔ ∃ k, m.lookup k = some v := by
  simp only [values, List.mem_map, Sigma.exists, exists_eq_right, ← AList.mem_lookup_iff,
    Option.mem_def]

theorem mem_of_lookup {m : HashMap K V} {k : K} {v : V} (h : m.lookup k = some v) : k ∈ m :=
  AList.lookup_isSome.mp (by simp [h])

theorem exists_of_mem {m : HashMap K V} {k : K} (h : k ∈ m) : ∃ v, m.lookup k = some v :=
  Option.isSome_iff_exists.mp (AList.lookup_isSome.mpr h)

theorem lookup_inj {m : HashMap K V} (h : (values m).Nodup) {k k' : K} {v : V}
    (hk : m.lookup k = some v) (hk' : m.lookup k' = some v) : k = k' := by
  have he : (⟨k, v⟩ : Σ _ : K, V) = ⟨k', v⟩ :=
    List.inj_on_of_nodup_map h (AList.mem_lookup_iff.mp hk) (AList.mem_lookup_iff.mp hk') rfl
  exact congrArg Sigma.fst he

theorem erase_entries_perm {m : HashMap K V} {k : K} {v : V} {l : List (Σ _ : K, V)}
    (h : m.entries.Perm (⟨k, v⟩ :: l)) : (m.erase k).entries.Perm l := by
  have hp : (List.kerase k m.entries).Perm (List.kerase k (⟨k, v⟩ :: l)) :=
    h.kerase m.nodupKeys
  have he : List.kerase k (⟨k, v⟩ :: l) = l := List.kerase_cons_eq rfl
  rwa [he] at hp

theorem entries_insertAll {m : HashMap K V} {entries : List (Σ _ : K, V)}
    (hd : (entries.map Sigma.fst).Nodup) (hm : ∀ e ∈ entries, e.1 ∉ m) :
    (m.insertAll entries).entries.Perm (m.entries ++ entries) := by
  induction entries generalizing m with
  | nil => simp [insertAll]
  | cons e entries ih =>
    obtain ⟨hne, hd⟩ := List.nodup_cons.mp hd
    have he : m.insertNew e.1 e.2 = m.insert e.1 e.2 := if_neg (hm e (by simp))
    have hins := AList.entries_insert_of_notMem (b := e.2) (hm e (by simp))
    have hrest := ih (m := m.insert e.1 e.2) hd fun e' he' => by
      rw [AList.mem_insert, not_or]
      exact ⟨fun hc => hne (hc ▸ List.mem_map_of_mem he'), hm e' (by simp [he'])⟩
    rw [hins] at hrest
    rw [insertAll, List.foldl_cons, he]
    exact hrest.trans List.perm_middle.symm

theorem mem_insertAll {m : HashMap K V} {entries : List (Σ _ : K, V)} {k : K} :
    k ∈ m.insertAll entries ↔ k ∈ m ∨ k ∈ entries.map Sigma.fst := by
  induction entries generalizing m with
  | nil => simp [insertAll]
  | cons e entries ih =>
    have hnew : k ∈ m.insertNew e.1 e.2 ↔ k ∈ m ∨ k = e.1 := by
      rw [insertNew]
      split
      · rename_i he
        exact ⟨.inl, fun h => h.elim id fun hk => hk ▸ he⟩
      · rw [AList.mem_insert, or_comm]
    rw [insertAll, List.foldl_cons, ← insertAll, ih, hnew, List.map_cons, List.mem_cons, or_assoc]

theorem values_insertAll_subset {m : HashMap K V} {entries : List (Σ _ : K, V)} {v : V}
    (h : v ∈ values (m.insertAll entries)) : v ∈ values m ∨ v ∈ entries.map Sigma.snd := by
  induction entries generalizing m with
  | nil => exact .inl h
  | cons e entries ih =>
    rw [insertAll, List.foldl_cons] at h
    rcases ih h with h | h
    · rw [insertNew] at h
      split at h
      · exact .inl h
      · rename_i he
        rw [values_insert e.2 he, List.mem_cons] at h
        rcases h with rfl | h
        · exact .inr List.mem_cons_self
        · exact .inl h
    · exact .inr (List.mem_cons_of_mem _ h)

theorem size_insertAll_eq_iff (entries : List (Σ _ : K, V)) :
    size (insertAll ∅ entries) = entries.length ↔ (entries.map Sigma.fst).Nodup := by
  constructor
  · intro h
    have hsub : (insertAll ∅ entries).keys ⊆ entries.map Sigma.fst := fun k hk => by
      have hm := mem_insertAll.mp (AList.mem_keys.mpr hk)
      exact hm.resolve_left (AList.notMem_empty k)
    have hkeys : (insertAll ∅ entries).keys.length = (entries.map Sigma.fst).length := by
      rw [List.length_map, ← h]
      exact List.length_map _
    have hp := ((insertAll ∅ entries).keys_nodup.subperm hsub).perm_of_length_le (Nat.le_of_eq hkeys.symm)
    exact hp.nodup_iff.mp (insertAll ∅ entries).keys_nodup
  · intro h
    have hp := entries_insertAll (m := ∅) h fun e _ => AList.notMem_empty e.1
    simpa [size] using hp.length_eq

theorem lookup_insertAll {m : HashMap K V} {entries : List (Σ _ : K, V)}
    (h : entries.Perm m.entries) (k : K) :
    (insertAll ∅ entries).lookup k = m.lookup k := by
  have hd : (entries.map Sigma.fst).Nodup := (h.map Sigma.fst).nodup_iff.mpr m.nodupKeys
  refine AList.perm_lookup ((entries_insertAll hd fun e _ => AList.notMem_empty e.1).trans ?_)
  simpa using h

theorem length_lt_of_missing {keys : List UInt32} (hd : keys.Nodup) {hash : UInt32}
    (h : hash ∉ keys) : keys.length < 2 ^ 32 := by
  have hn : ((hash :: keys).map UInt32.toNat).Nodup :=
    (List.nodup_cons.mpr ⟨h, hd⟩).map fun _ _ he => UInt32.toNat_inj.mp he
  have hsub : (hash :: keys).map UInt32.toNat ⊆ List.range (2 ^ 32) := by
    intro n hm
    obtain ⟨key, -, rfl⟩ := List.mem_map.mp hm
    exact List.mem_range.mpr key.toNat_lt
  have hl := (List.subperm_of_subset hn hsub).length_le
  rw [List.length_map, List.length_cons, List.length_range] at hl
  omega

theorem size_lt_of_missing {m : HashMap UInt32 V} {hash : UInt32} (h : hash ∉ m) :
    size m < 2 ^ 32 := by
  have hl := length_lt_of_missing m.keys_nodup (mt AList.mem_keys.mpr h)
  rwa [AList.keys, List.keys, List.length_map] at hl

theorem size_congr {m n : HashMap K V} (h : ∀ k, m.lookup k = n.lookup k) : size m = size n := by
  have hmem : ∀ k, k ∈ m.keys ↔ k ∈ n.keys := fun k => by
    rw [← AList.mem_keys, ← AList.mem_keys, ← AList.lookup_isSome, h, AList.lookup_isSome]
  have hp := (List.perm_ext_iff_of_nodup m.keys_nodup n.keys_nodup).mpr hmem
  simpa only [AList.keys, List.keys, List.length_map, size] using hp.length_eq

theorem lookup_insertEach {entries : List (Σ _ : K, V)} (hd : (entries.map Sigma.fst).Nodup)
    (k : K) (v : V) :
    (entries.foldl (fun m e => m.insert e.1 e.2) (∅ : HashMap K V)).lookup k = some v ↔
      ⟨k, v⟩ ∈ entries := by
  induction entries using List.reverseRecOn with
  | nil => simp
  | append_singleton entries e ih =>
    rw [List.map_append, List.nodup_append] at hd
    obtain ⟨hd, -, hne⟩ := hd
    rw [List.foldl_append, List.foldl_cons, List.foldl_nil, List.mem_append, List.mem_singleton]
    by_cases hk : k = e.1
    · subst hk
      have hnot : ⟨e.1, v⟩ ∉ entries := fun hm =>
        hne e.1 (List.mem_map.mpr ⟨_, hm, rfl⟩) e.1 (by simp) rfl
      rw [AList.lookup_insert, or_iff_right hnot, Option.some.injEq]
      exact ⟨fun h => h ▸ rfl, fun h => by rw [← h]⟩
    · rw [AList.lookup_insert_ne hk, ih hd, or_iff_left fun h => hk (congrArg Sigma.fst h)]

-- ---------------------------------------------------------------------------
-- Sweeps
-- ---------------------------------------------------------------------------

/-- Visits the entries in turn, erasing from `m` what `keep` rejects. `n`
counts the entries kept so far and `free` collects the values of the erased
ones. -/
def sweep (keep : Nat → (Σ _ : K, V) → Bool) :
    List (Σ _ : K, V) → HashMap K V → Nat → List V → HashMap K V × Nat × List V
  | [], m, n, free => (m, n, free)
  | e :: rest, m, n, free =>
    if keep n e then sweep keep rest m (n + 1) free
    else sweep keep rest (m.erase e.1) n (free ++ [e.2])

theorem sweep_spec (keep : Nat → (Σ _ : K, V) → Bool) {order : List (Σ _ : K, V)}
    (base : List (Σ _ : K, V)) {m : HashMap K V} (h : m.entries.Perm (base ++ order)) (n : Nat)
    (free : List V) :
    ∃ kept erased, (kept ++ erased).Perm order ∧
      (sweep keep order m n free).1.entries.Perm (base ++ kept) ∧
      (sweep keep order m n free).2.1 = n + kept.length ∧
      (sweep keep order m n free).2.2 = free ++ erased.map Sigma.snd := by
  induction order generalizing base m n free with
  | nil => exact ⟨[], [], by simp, by simpa [sweep] using h, rfl, by simp [sweep]⟩
  | cons e rest ih =>
    unfold sweep
    split
    · have h' : m.entries.Perm ((base ++ [e]) ++ rest) := by simpa using h
      obtain ⟨kept, erased, h1, h2, h3, h4⟩ := ih (base ++ [e]) h' (n + 1) free
      refine ⟨e :: kept, erased, by simpa using h1, by simpa using h2, ?_, h4⟩
      rw [h3, List.length_cons]
      omega
    · have h' : (m.erase e.1).entries.Perm (base ++ rest) :=
        erase_entries_perm (h.trans List.perm_middle)
      obtain ⟨kept, erased, h1, h2, h3, h4⟩ := ih base h' n (free ++ [e.2])
      refine ⟨kept, e :: erased, ?_, h2, h3, by simp [h4]⟩
      exact List.perm_middle.trans (h1.cons e)

theorem lookup_sweep (keep : (Σ _ : K, V) → Bool) {order : List (Σ _ : K, V)}
    (hd : (order.map Sigma.fst).Nodup) {m : HashMap K V}
    (h : ∀ e ∈ order, m.lookup e.1 = some e.2) (n : Nat) (free : List V) (k : K) :
    (sweep (fun _ => keep) order m n free).1.lookup k =
      if k ∈ order.map Sigma.fst then (m.lookup k).filter fun v => keep ⟨k, v⟩
      else m.lookup k := by
  induction order generalizing m n free with
  | nil => simp [sweep]
  | cons e rest ih =>
    rw [List.map_cons, List.nodup_cons] at hd
    have he : m.lookup e.1 = some e.2 := h e (by simp)
    unfold sweep
    split
    · rename_i hk
      rw [ih hd.2 fun e' he' => h e' (by simp [he'])]
      by_cases hke : k = e.1
      · subst hke
        rw [if_neg hd.1, if_pos (by simp), he, Option.filter_some, if_pos hk]
      · simp only [List.map_cons, List.mem_cons, hke, false_or]
    · rename_i hk
      rw [ih hd.2]
      · by_cases hke : k = e.1
        · subst hke
          rw [if_neg hd.1, if_pos (by simp), he, Option.filter_some, if_neg hk, AList.lookup_erase]
        · simp only [List.map_cons, List.mem_cons, hke, false_or, AList.lookup_erase_ne hke]
      · intro e' he'
        have hne : e'.1 ≠ e.1 := fun hc => hd.1 (hc ▸ List.mem_map_of_mem he')
        rw [AList.lookup_erase_ne hne]
        exact h e' (by simp [he'])

theorem entries_sweep (p : (Σ _ : K, V) → Bool) {order : List (Σ _ : K, V)}
    (base : List (Σ _ : K, V)) {m : HashMap K V} (h : m.entries.Perm (base ++ order)) (n : Nat)
    (free : List V) :
    (sweep (fun _ => p) order m n free).1.entries.Perm (base ++ order.filter p) := by
  induction order generalizing base m n free with
  | nil => exact h
  | cons e rest ih =>
    unfold sweep
    cases hp : p e with
    | true =>
      rw [List.filter_cons_of_pos hp, if_pos rfl]
      have h' : m.entries.Perm ((base ++ [e]) ++ rest) := by simpa using h
      simpa using ih (base ++ [e]) h' (n + 1) free
    | false =>
      rw [List.filter_cons_of_neg (by simp [hp]), if_neg Bool.false_ne_true]
      exact ih base (erase_entries_perm (h.trans List.perm_middle)) n (free ++ [e.2])

theorem sweep_free (keep : Nat → (Σ _ : K, V) → Bool) (order : List (Σ _ : K, V)) (m : HashMap K V)
    (n : Nat) (free : List V) :
    sweep keep order m n free = ((sweep keep order m n []).1, (sweep keep order m n []).2.1,
      free ++ (sweep keep order m n []).2.2) := by
  induction order generalizing m n free with
  | nil => simp only [sweep, List.append_nil]
  | cons e rest ih =>
    unfold sweep
    split
    · exact ih m (n + 1) free
    · rw [ih, ih (m.erase e.1) n ([] ++ [e.2]), List.nil_append, List.append_assoc]

theorem sweep_capped (p : (Σ _ : K, V) → Bool) {cap : Nat} {order : List (Σ _ : K, V)}
    {m : HashMap K V} {n : Nat} (free : List V) (h : n + order.countP p ≤ cap) :
    sweep (fun n e => decide (n < cap) && p e) order m n free =
      sweep (fun _ => p) order m n free := by
  induction order generalizing m n free with
  | nil => rfl
  | cons e rest ih =>
    cases hp : p e with
    | true =>
      rw [List.countP_cons_of_pos hp] at h
      have hn : n < cap := by omega
      simp only [sweep, hp, hn, decide_true, Bool.and_self, if_true]
      exact ih free (by omega)
    | false =>
      rw [List.countP_cons_of_neg (by simp [hp])] at h
      simp only [sweep, hp, Bool.and_false, Bool.false_eq_true, if_false]
      exact ih _ h

end HashMap

end TextMining
