import Mathlib.Algebra.Order.Group.Defs
import Mathlib.Algebra.Order.Group.Unbundled.Abs
import Mathlib.Data.List.Nodup

/-!
# Paths through a trellis

One layer for each position with the same labels in every layer, a score for
each node and one for each step between neighbouring layers. `IsBest x y b`
says that `b` is the highest score of a path from the first layer to the node
`y` of layer `x`; Viterbi's recurrence is `IsBest.step`.
-/

namespace TextMining.Trellis

variable {R : Type*} [AddCommGroup R]

/-- `node x y` scores the label `y` at position `x`, `step y y'` the label `y'` right after `y`. -/
structure Scores (R : Type*) where
  width : Nat
  node : Nat → Nat → R
  step : Nat → Nat → R

variable (S : Scores R)

/-- What follows a node of label `y` at position `x`, with the step to it. -/
def tail (x y : Nat) : List Nat → R
  | [] => 0
  | y' :: ys => S.step y y' + S.node (x + 1) y' + tail (x + 1) y' ys

def score (x : Nat) : List Nat → R
  | [] => 0
  | y :: ys => S.node x y + tail S x y ys

def sequences : Nat → List (List Nat)
  | 0 => [[]]
  | n + 1 => (List.range S.width).flatMap fun y => (sequences n).map (· ++ [y])

section
variable {S} {x y n : Nat} {us ys : List Nat}

theorem tail_append_cons {u : Nat} : tail S x u (us ++ y :: ys) =
    tail S x u (us ++ [y]) + tail S (x + 1 + us.length) y ys := by
  induction us generalizing x u with
  | nil => simp [tail]
  | cons v us ih =>
    have hlen : x + 1 + 1 + us.length = x + 1 + (us.length + 1) := by omega
    simp only [List.cons_append, tail, ih, List.length_cons, hlen]
    exact (add_assoc _ _ _).symm

theorem score_append_cons : score S x (us ++ y :: ys) =
    score S x (us ++ [y]) + tail S (x + us.length) y ys := by
  cases us with
  | nil => simp [score, tail]
  | cons u us =>
    have hlen : x + 1 + us.length = x + (us.length + 1) := by omega
    rw [List.cons_append, score, tail_append_cons, List.cons_append, score, List.length_cons, hlen,
      add_assoc]

omit [AddCommGroup R] in
theorem mem_sequences : us ∈ sequences S n ↔ us.length = n ∧ ∀ u ∈ us, u < S.width := by
  induction n generalizing us with
  | zero =>
    rw [sequences, List.mem_singleton]
    refine ⟨?_, fun h => List.length_eq_zero_iff.mp h.1⟩
    rintro rfl
    simp
  | succ n ih =>
    rw [sequences, List.mem_flatMap]
    constructor
    · rintro ⟨y, hy, hus⟩
      obtain ⟨vs, hvs, rfl⟩ := List.mem_map.mp hus
      obtain ⟨hlen, hall⟩ := ih.mp hvs
      refine ⟨by simp [hlen], fun u hu => ?_⟩
      rcases List.mem_append.mp hu with hu | hu
      · exact hall u hu
      · rw [List.mem_singleton.mp hu]
        exact List.mem_range.mp hy
    · rintro ⟨hlen, hall⟩
      have hne : us ≠ [] := by
        rintro rfl
        cases hlen
      have hsplit := List.dropLast_append_getLast hne
      refine ⟨us.getLast hne, List.mem_range.mpr (hall _ (List.getLast_mem hne)), ?_⟩
      refine List.mem_map.mpr ⟨us.dropLast, ih.mpr ⟨by simp [hlen], fun u hu => ?_⟩, hsplit⟩
      exact hall u (List.dropLast_subset us hu)

omit [AddCommGroup R] in
theorem nodup_sequences : (sequences S n).Nodup := by
  induction n with
  | zero => simp [sequences]
  | succ n ih =>
    rw [sequences, List.nodup_flatMap]
    refine ⟨fun y _ => ih.map fun a b hab => List.append_cancel_right hab, ?_⟩
    refine List.nodup_range.imp_of_mem fun _ _ hne => ?_
    refine List.disjoint_left.mpr fun us hus hus' => ?_
    obtain ⟨vs, -, rfl⟩ := List.mem_map.mp hus
    obtain ⟨vs', -, heq⟩ := List.mem_map.mp hus'
    exact hne (List.singleton_inj.mp (List.append_inj_right' heq rfl)).symm

end

-- ---------------------------------------------------------------------------
-- The best path to a node
-- ---------------------------------------------------------------------------

section
variable [LinearOrder R] {S} {x y : Nat} {b : R}

structure IsBest (S : Scores R) (x y : Nat) (b : R) : Prop where
  le : ∀ us ∈ sequences S x, score S 0 (us ++ [y]) ≤ b
  attained : ∃ us ∈ sequences S x, score S 0 (us ++ [y]) = b

theorem isBest_zero : IsBest S 0 y (S.node 0 y) := by
  have hone : score S 0 ([] ++ [y]) = S.node 0 y := by simp [score, tail]
  constructor
  · intro us hus
    rw [List.mem_singleton.mp hus, hone]
  · exact ⟨[], List.mem_singleton_self [], hone⟩

omit [LinearOrder R] in
theorem score_snoc {us : List Nat} {k : Nat} (hlen : us.length = x) :
    score S 0 (us ++ [k] ++ [y]) = score S 0 (us ++ [k]) + S.step k y + S.node (x + 1) y := by
  have hsplit : score S 0 (us ++ k :: [y]) = _ := score_append_cons
  rw [List.append_assoc, List.singleton_append, hsplit, hlen, Nat.zero_add]
  simp [tail, add_assoc]

theorem IsBest.step [IsOrderedAddMonoid R] (best : Nat → R)
    (h : ∀ k < S.width, IsBest S x k (best k))
    (hle : ∀ k < S.width, best k + S.step k y + S.node (x + 1) y ≤ b)
    (hmax : ∃ k < S.width, best k + S.step k y + S.node (x + 1) y = b) :
    IsBest S (x + 1) y b := by
  constructor
  · intro us hus
    obtain ⟨k, hk, hus⟩ := List.mem_flatMap.mp hus
    obtain ⟨vs, hvs, rfl⟩ := List.mem_map.mp hus
    have hk := List.mem_range.mp hk
    rw [score_snoc (mem_sequences.mp hvs).1]
    exact (add_le_add_left (add_le_add_left ((h k hk).le vs hvs) _) _).trans (hle k hk)
  · obtain ⟨k, hk, rfl⟩ := hmax
    obtain ⟨vs, hvs, hbest⟩ := (h k hk).attained
    refine ⟨vs ++ [k], ?_, by rw [score_snoc (mem_sequences.mp hvs).1, hbest]⟩
    exact List.mem_flatMap.mpr ⟨k, List.mem_range.mpr hk, List.mem_map_of_mem hvs⟩

theorem IsBest.unique {b' : R} (h : IsBest S x y b) (h' : IsBest S x y b') : b = b' := by
  obtain ⟨us, hus, rfl⟩ := h.attained
  obtain ⟨vs, hvs, rfl⟩ := h'.attained
  exact le_antisymm (h'.le us hus) (h.le vs hvs)

end

-- ---------------------------------------------------------------------------
-- The first best of a list
-- ---------------------------------------------------------------------------

section
variable {K : Type*} [LinearOrder R]

/-- A later value replaces the best one only if it is higher. -/
def firstBest (start : R) (vs : List (R × K)) : R × Option K :=
  vs.foldl (fun best v => if best.1 < v.1 then (v.1, some v.2) else best) (start, none)

omit [AddCommGroup R] in
theorem firstBest_spec (start : R) (vs : List (R × K)) (hvs : ∃ v ∈ vs, start < v.1) :
    ∃ v ∈ vs, firstBest start vs = (v.1, some v.2) ∧ ∀ w ∈ vs, w.1 ≤ v.1 := by
  have hloop : ∀ (vs : List (R × K)) (acc : R × Option K),
      let res := vs.foldl (fun best v => if best.1 < v.1 then (v.1, some v.2) else best) acc
      (res = acc ∨ ∃ v ∈ vs, res = (v.1, some v.2)) ∧ acc.1 ≤ res.1 ∧ ∀ w ∈ vs, w.1 ≤ res.1 := by
    intro vs
    induction vs with
    | nil => exact fun acc => ⟨.inl rfl, le_rfl, by simp⟩
    | cons v vs ih =>
      intro acc
      rw [List.foldl_cons]
      obtain ⟨hres, hle, hall⟩ := ih (if acc.1 < v.1 then (v.1, some v.2) else acc)
      generalize vs.foldl _ _ = res at hres hle hall
      split at hres
      · rename_i hlt
        rw [if_pos hlt] at hle
        refine ⟨.inr ?_, hlt.le.trans hle, fun w hw => ?_⟩
        · rcases hres with hres | ⟨w, hw, hres⟩
          · exact ⟨v, List.mem_cons_self, hres⟩
          · exact ⟨w, List.mem_cons_of_mem _ hw, hres⟩
        · rcases List.mem_cons.mp hw with rfl | hw
          · exact hle
          · exact hall w hw
      · rename_i hge
        rw [if_neg hge] at hle
        refine ⟨hres.imp_right fun ⟨w, hw, hres⟩ => ⟨w, List.mem_cons_of_mem _ hw, hres⟩, hle,
          fun w hw => ?_⟩
        rcases List.mem_cons.mp hw with rfl | hw
        · exact (not_lt.mp hge).trans hle
        · exact hall w hw
  obtain ⟨hres, -, hall⟩ := hloop vs (start, none)
  obtain ⟨v, hv, hlt⟩ := hvs
  rcases hres with hres | ⟨w, hw, hres⟩
  · have hle := hall v hv
    rw [hres] at hle
    exact absurd hlt (not_lt.mpr hle)
  · refine ⟨w, hw, hres, fun u hu => ?_⟩
    have hle := hall u hu
    rwa [hres] at hle

end

end TextMining.Trellis
