import Mathlib.Algebra.BigOperators.Group.List.Basic
import Mathlib.Order.Lattice

/-!
# Beam search

A search down a tree that adds up the scores of the nodes and goes on at the
sons with the highest sums, as many as the beam is wide. It reports the best
leaf it meets through a variable that all branches share.
-/

namespace TextMining.Beam

variable {K R : Type*} [LinearOrder R]

/-- A priority queue: the order in which what has been pushed is popped. -/
structure Queue (K R : Type*) [LinearOrder R] where
  pops : List (K × R) → List (K × R)
  perm : ∀ l, (pops l).Perm l
  sorted : ∀ l, (pops l).Pairwise fun e f => f.2 ≤ e.2

def Queue.stable (K R : Type*) [LinearOrder R] : Queue K R where
  pops l := l.mergeSort fun e f => f.2 ≤ e.2
  perm l := List.mergeSort_perm l _
  sorted l := by
    have h : (l.mergeSort fun e f => f.2 ≤ e.2).Pairwise fun e f => decide (f.2 ≤ e.2) = true := by
      apply List.pairwise_mergeSort
      · intro a b c hab hbc
        exact decide_eq_true ((of_decide_eq_true hbc).trans (of_decide_eq_true hab))
      · intro a b
        simpa using le_total b.2 a.2
    exact h.imp fun hab => of_decide_eq_true hab

-- ---------------------------------------------------------------------------
-- The best so far
-- ---------------------------------------------------------------------------

/-- A later entry replaces the best one only if it is better. -/
def better (best e : K × R) : K × R := if best.2 < e.2 then e else best

structure Best (met : K × R → Prop) (start best : K × R) : Prop where
  eq_or : best = start ∨ met best ∧ start.2 < best.2
  start_le : start.2 ≤ best.2
  le : ∀ e, met e → e.2 ≤ best.2

section
variable {met met' : K × R → Prop} {start best best' : K × R}

theorem Best.refl (h : ∀ e, ¬met e) (start : K × R) : Best met start start :=
  ⟨.inl rfl, le_rfl, fun e he => absurd he (h e)⟩

theorem Best.better (best e : K × R) : Best (· = e) best (better best e) := by
  unfold Beam.better
  split
  · rename_i hlt
    refine ⟨.inr ⟨rfl, hlt⟩, hlt.le, ?_⟩
    rintro _ rfl
    exact le_rfl
  · rename_i hle
    refine ⟨.inl rfl, le_rfl, ?_⟩
    rintro _ rfl
    exact not_lt.mp hle

theorem Best.trans (h : Best met start best) (h' : Best met' best best') :
    Best (fun e => met e ∨ met' e) start best' := by
  refine ⟨?_, h.start_le.trans h'.start_le, fun e he => ?_⟩
  · rcases h'.eq_or with rfl | ⟨hmet, hlt⟩
    · exact h.eq_or.imp_right fun hmet => ⟨.inl hmet.1, hmet.2⟩
    · exact .inr ⟨.inr hmet, h.start_le.trans_lt hlt⟩
  · rcases he with he | he
    · exact (h.le e he).trans h'.start_le
    · exact h'.le e he

theorem Best.congr (h : Best met start best) (hm : ∀ e, met e ↔ met' e) : Best met' start best := by
  obtain rfl : met = met' := funext fun e => propext (hm e)
  exact h

end

-- ---------------------------------------------------------------------------
-- The search
-- ---------------------------------------------------------------------------

variable [AddMonoid R] (sons : K → List K) (score : K → R) (queue : Queue K R) (width : Nat)

def scored (c : K) (x : R) : List (K × R) := (sons c).map fun d => (d, x + score d)

def beam (c : K) (x : R) : List (K × R) := (queue.pops (scored sons score c x)).take width

/-- The search below `c`, whose sum is `x`; `none` when the fuel runs out. -/
def search : Nat → K → R → K × R → Option (K × R)
  | fuel, c, x, best =>
    if sons c = [] then some best
    else
      match fuel with
      | 0 => none
      | fuel + 1 => (beam sons score queue width c x).foldlM (fun best e =>
          if sons e.1 = [] then some (better best e) else search fuel e.1 e.2 best) best

/-- A path from `c`, whose sum is `x`, down to a leaf with its sum. -/
inductive Leads (next : K → R → List (K × R)) : K → R → List K → K × R → Prop
  | leaf {c : K} {x : R} {e : K × R} : e ∈ next c x → sons e.1 = [] → Leads next c x [e.1] e
  | down {c : K} {x : R} {e l : K × R} {path : List K} : e ∈ next c x →
      Leads next e.1 e.2 path l → Leads next c x (e.1 :: path) l

def Reached (c : K) (x : R) (l : K × R) : Prop :=
  ∃ path, Leads sons (beam sons score queue width) c x path l

def Below (c : K) (x : R) (l : K × R) : Prop := ∃ path, Leads sons (scored sons score) c x path l

section
variable {sons score queue width} {c : K} {x : R} {e l : K × R} {path : List K}

theorem mem_scored_of_mem_beam (h : e ∈ beam sons score queue width c x) :
    e ∈ scored sons score c x :=
  (queue.perm _).mem_iff.mp (List.mem_of_mem_take h)

theorem beam_highest (he : e ∈ beam sons score queue width c x) (hl : l ∈ scored sons score c x)
    (hout : l ∉ beam sons score queue width c x) : l.2 ≤ e.2 := by
  have hsorted := queue.sorted (scored sons score c x)
  have hmem := (queue.perm (scored sons score c x)).mem_iff.mpr hl
  rw [← List.take_append_drop width (queue.pops _)] at hsorted hmem
  have hdrop := (List.mem_append.mp hmem).resolve_left hout
  exact (List.pairwise_append.mp hsorted).2.2 e he l hdrop

theorem beam_eq_pops (h : (sons c).length ≤ width) :
    beam sons score queue width c x = queue.pops (scored sons score c x) := by
  apply List.take_of_length_le
  rwa [(queue.perm _).length_eq, scored, List.length_map]

omit [LinearOrder R] in
theorem Leads.sum {next : K → R → List (K × R)}
    (hnext : ∀ c x e, e ∈ next c x → e ∈ scored sons score c x)
    (h : Leads sons next c x path l) :
    path.getLast? = some l.1 ∧ l.2 = x + (path.map score).sum := by
  induction h with
  | leaf he _ =>
    obtain ⟨d, -, rfl⟩ := List.mem_map.mp (hnext _ _ _ he)
    exact ⟨rfl, by rw [List.map_singleton, List.sum_singleton]⟩
  | down he hrest ih =>
    obtain ⟨d, -, rfl⟩ := List.mem_map.mp (hnext _ _ _ he)
    refine ⟨?_, by rw [ih.2, List.map_cons, List.sum_cons, add_assoc]⟩
    cases hrest with
    | leaf _ _ => exact ih.1
    | down _ _ => exact ih.1

/-- A beam as wide as all families reaches every leaf. -/
theorem reached_iff_below (h : ∀ c, (sons c).length ≤ width) :
    Reached sons score queue width c x l ↔ Below sons score c x l := by
  have hmem : ∀ c x e, e ∈ beam sons score queue width c x ↔ e ∈ scored sons score c x :=
    fun c x e => by rw [beam_eq_pops (h c), (queue.perm _).mem_iff]
  refine exists_congr fun path => ⟨fun hp => ?_, fun hp => ?_⟩
  · induction hp with
    | leaf he hleaf => exact .leaf ((hmem _ _ _).mp he) hleaf
    | down he _ ih => exact .down ((hmem _ _ _).mp he) ih
  · induction hp with
    | leaf he hleaf => exact .leaf ((hmem _ _ _).mpr he) hleaf
    | down he _ ih => exact .down ((hmem _ _ _).mpr he) ih

def Through (sons : K → List K) (score : K → R) (queue : Queue K R) (width : Nat)
    (es : List (K × R)) (l : K × R) : Prop :=
  ∃ e ∈ es, (sons e.1 = [] ∧ l = e) ∨ Reached sons score queue width e.1 e.2 l

theorem reached_iff : Reached sons score queue width c x l ↔
    Through sons score queue width (beam sons score queue width c x) l := by
  constructor
  · rintro ⟨path, hp⟩
    cases hp with
    | leaf he hleaf => exact ⟨_, he, .inl ⟨hleaf, rfl⟩⟩
    | down he hrest => exact ⟨_, he, .inr ⟨_, hrest⟩⟩
  · rintro ⟨e, he, ⟨hleaf, rfl⟩ | ⟨path, hp⟩⟩
    · exact ⟨_, .leaf he hleaf⟩
    · exact ⟨_, .down he hp⟩

theorem not_reached_of_leaf (h : sons c = []) : ¬Reached sons score queue width c x l := by
  rw [reached_iff]
  rintro ⟨e, he, -⟩
  have hin := mem_scored_of_mem_beam he
  rw [scored, h] at hin
  cases hin

/-- The search ends and finds the best of the leaves it reaches, where the
rank of a node is above those of its sons. -/
theorem search_best (score : K → R) (queue : Queue K R) (width : Nat) {rank : K → Nat} (hrank : ∀ c, ∀ d ∈ sons c, rank d < rank c) {fuel : Nat} {c : K} (hfuel : rank c ≤ fuel)
    (x : R) (start : K × R) :
    ∃ best, search sons score queue width fuel c x start = some best ∧
      Best (Reached sons score queue width c x) start best := by
  induction fuel generalizing c x start with
  | zero =>
    have hleaf : sons c = [] := List.eq_nil_iff_forall_not_mem.mpr fun d hd =>
      absurd (hrank c d hd) (Nat.not_lt_of_le (Nat.le_trans hfuel (Nat.zero_le _)))
    refine ⟨start, ?_, .refl (fun l => not_reached_of_leaf hleaf) start⟩
    rw [search, if_pos hleaf]
  | succ fuel ih =>
    by_cases hleaf : sons c = []
    · refine ⟨start, ?_, .refl (fun l => not_reached_of_leaf hleaf) start⟩
      rw [search, if_pos hleaf]
    · -- the loop over a part of the beam
      have hloop : ∀ es : List (K × R), (∀ e ∈ es, e.1 ∈ sons c) → ∀ start,
          ∃ best, es.foldlM (fun best e => if sons e.1 = [] then some (better best e)
              else search sons score queue width fuel e.1 e.2 best) start = some best ∧
            Best (Through sons score queue width es) start best := by
        intro es
        induction es with
        | nil =>
          refine fun _ start => ⟨start, rfl, .refl ?_ start⟩
          rintro l ⟨e, he, -⟩
          cases he
        | cons e es ihes =>
          intro hes start
          obtain ⟨mid, hmid, hbest⟩ : ∃ mid, (if sons e.1 = [] then some (better start e)
                else search sons score queue width fuel e.1 e.2 start) = some mid ∧
              Best (Through sons score queue width [e]) start mid := by
            split
            · rename_i he
              refine ⟨_, rfl, (Best.better start e).congr fun l => ⟨?_, ?_⟩⟩
              · exact fun hl => ⟨e, List.mem_singleton_self e, .inl ⟨he, hl⟩⟩
              · rintro ⟨e', he', hl⟩
                obtain rfl := List.mem_singleton.mp he'
                exact hl.elim And.right fun hl => absurd hl (not_reached_of_leaf he)
            · rename_i he
              have hlt := hrank c e.1 (hes e List.mem_cons_self)
              obtain ⟨mid, hmid, hbest⟩ :=
                ih (Nat.le_of_lt_succ (Nat.lt_of_lt_of_le hlt hfuel)) e.2 start
              refine ⟨mid, hmid, hbest.congr fun l => ⟨?_, ?_⟩⟩
              · exact fun hl => ⟨e, List.mem_singleton_self e, .inr hl⟩
              · rintro ⟨e', he', hl⟩
                obtain rfl := List.mem_singleton.mp he'
                exact hl.resolve_left fun hl => he hl.1
          obtain ⟨best, hrun, hrest⟩ := ihes (fun e' he' => hes e' (List.mem_cons_of_mem e he')) mid
          refine ⟨best, ?_, (hbest.trans hrest).congr fun l => ?_⟩
          · rw [List.foldlM_cons, hmid]
            exact hrun
          · simp only [Through, List.mem_cons, List.not_mem_nil, or_false, exists_eq_left,
              exists_eq_or_imp]
      obtain ⟨best, hrun, hbest⟩ := hloop (beam sons score queue width c x) (fun e he => by
        obtain ⟨d, hd, rfl⟩ := List.mem_map.mp (mem_scored_of_mem_beam he)
        exact hd) start
      refine ⟨best, ?_, hbest.congr fun l => reached_iff.symm⟩
      rw [search, if_neg hleaf]
      exact hrun

end

end TextMining.Beam
