import Mathlib.Data.List.Perm.Basic
import Mathlib.Order.Basic
import Mathlib.Order.Lattice

/-!
# Best-first enumeration

An agenda of partial solutions, each standing for the solutions it leads to,
from which the one with the smallest bound is taken: a complete one is
returned, any other gives way to the ones that extend it by a step. As long as
no bound exceeds the cost of a solution behind it, the solutions come in the
order of their costs, each once.
-/

namespace TextMining.BestFirst

variable {P C R : Type*} [LinearOrder R]

/-- No solution costs less than the bound of a partial solution that leads to it. -/
def Admissible (solutions : P → List C) (bound : P → R) (cost : C → R) (agenda : List P) : Prop :=
  ∀ p ∈ agenda, ∀ c ∈ solutions p, bound p ≤ cost c

/-- What has been returned from an agenda that stood for all the solutions. -/
structure Enumerates (solutions : P → List C) (cost : C → R) (all returned : List C)
    (agenda : List P) : Prop where
  perm : (returned ++ agenda.flatMap solutions).Perm all
  sorted : returned.Pairwise fun c d => cost c ≤ cost d
  le : ∀ c ∈ returned, ∀ d ∈ agenda.flatMap solutions, cost c ≤ cost d

variable {solutions : P → List C} {bound : P → R} {cost : C → R} {all returned : List C}
  {agenda agenda' rest sons : List P} {p : P} {c : C}

theorem Enumerates.start (h : (agenda.flatMap solutions).Perm all) :
    Enumerates solutions cost all [] agenda where
  perm := h
  sorted := .nil
  le := by simp

theorem Enumerates.congr (h : Enumerates solutions cost all returned agenda)
    (hp : (agenda'.flatMap solutions).Perm (agenda.flatMap solutions)) :
    Enumerates solutions cost all returned agenda' where
  perm := (hp.append_left _).trans h.perm
  sorted := h.sorted
  le c hc d hd := h.le c hc d (hp.mem_iff.mp hd)

theorem Enumerates.expand (h : Enumerates solutions cost all returned agenda)
    (hpop : agenda.Perm (p :: rest)) (hsons : (sons.flatMap solutions).Perm (solutions p))
    (hpush : agenda'.Perm (rest ++ sons)) : Enumerates solutions cost all returned agenda' := by
  apply h.congr
  refine (hpush.flatMap_right solutions).trans (.trans ?_ (hpop.flatMap_right solutions).symm)
  rw [List.flatMap_append, List.flatMap_cons]
  exact (hsons.append_left _).trans List.perm_append_comm

theorem Enumerates.pop (h : Enumerates solutions cost all returned agenda)
    (hadm : Admissible solutions bound cost rest) (hpop : agenda.Perm (p :: rest))
    (hp : solutions p = [c]) (hcost : cost c = bound p) (hmin : ∀ q ∈ rest, bound p ≤ bound q) :
    Enumerates solutions cost all (returned ++ [c]) rest := by
  have hperm : (agenda.flatMap solutions).Perm (c :: rest.flatMap solutions) := by
    have := hpop.flatMap_right solutions
    rwa [List.flatMap_cons, hp] at this
  have hc : c ∈ agenda.flatMap solutions := hperm.mem_iff.mpr List.mem_cons_self
  have hrest : ∀ d ∈ rest.flatMap solutions, cost c ≤ cost d := by
    intro d hd
    obtain ⟨q, hq, hdq⟩ := List.mem_flatMap.mp hd
    rw [hcost]
    exact (hmin q hq).trans (hadm q hq d hdq)
  constructor
  · rw [List.append_assoc, List.singleton_append]
    exact (hperm.symm.append_left _).trans h.perm
  · refine List.pairwise_append.mpr ⟨h.sorted, List.pairwise_singleton _ _, fun a ha b hb => ?_⟩
    rw [List.mem_singleton.mp hb]
    exact h.le a ha c hc
  · intro a ha d hd
    rcases List.mem_append.mp ha with ha | ha
    · exact h.le a ha d (hperm.mem_iff.mpr (List.mem_cons_of_mem _ hd))
    · rw [List.mem_singleton.mp ha]
      exact hrest d hd

theorem Enumerates.perm_of_nil (h : Enumerates solutions cost all returned []) :
    returned.Perm all := by
  simpa using h.perm

theorem Enumerates.nodup (h : Enumerates solutions cost all returned agenda) (hall : all.Nodup) :
    returned.Nodup :=
  (List.nodup_append.mp (h.perm.nodup_iff.mpr hall)).1

theorem Enumerates.le_of_not_mem (h : Enumerates solutions cost all returned agenda)
    {d : C} (hc : c ∈ returned) (hd : d ∈ all) (hout : d ∉ returned) : cost c ≤ cost d :=
  h.le c hc d ((List.mem_append.mp (h.perm.mem_iff.mpr hd)).resolve_left hout)

end TextMining.BestFirst
