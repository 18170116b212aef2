import Mathlib.Data.Fintype.Pigeonhole
import Mathlib.Data.Fintype.Option
import Mathlib.Logic.Function.Iterate

/-!
# Circles in lists

`ListCircle` of `list_circle.cc`. A pointer is a node or `NULL`, and it is
undefined to follow `NULL`. The fast pointer has gone twice as far as the slow
one whenever they are compared.
-/

namespace TextMining.ListCircle

universe u

-- ---------------------------------------------------------------------------
-- Two walkers
-- ---------------------------------------------------------------------------

section
variable {α : Type u} {f : α → α} {x : α} {a b t : Nat}

theorem iterate_eq_of_le (h : f^[a] x = f^[b] x) (hab : a ≤ b) {k : Nat} (hk : a ≤ k) (m : Nat) :
    f^[k + m * (b - a)] x = f^[k] x := by
  induction m with
  | zero => rw [Nat.zero_mul, Nat.add_zero]
  | succ m ih =>
    have hsplit : k + (m + 1) * (b - a) = k + m * (b - a) - a + b := by
      rw [Nat.succ_mul]
      omega
    have hback : k + m * (b - a) = k + m * (b - a) - a + a := by omega
    rw [hsplit, Function.iterate_add_apply, ← h, ← Function.iterate_add_apply, ← hback, ih]

theorem exists_meeting [Finite α] (f : α → α) (x : α) : ∃ t, 0 < t ∧ f^[2 * t] x = f^[t] x := by
  obtain ⟨a, b, hne, h⟩ := Finite.exists_ne_map_eq_of_infinite fun k => f^[k] x
  wlog hab : a < b generalizing a b
  · exact this b a hne.symm h.symm (by omega)
  refine ⟨(a + 1) * (b - a), Nat.mul_pos a.succ_pos (Nat.sub_pos_of_lt hab), ?_⟩
  rw [Nat.two_mul]
  refine iterate_eq_of_le h hab.le ?_ (a + 1)
  calc a ≤ (a + 1) * 1 := by omega
    _ ≤ (a + 1) * (b - a) := Nat.mul_le_mul_left _ (by omega)

end

-- ---------------------------------------------------------------------------
-- The function
-- ---------------------------------------------------------------------------

section
variable {Node : Type} [DecidableEq Node] (next : Node → Option Node)

def loop : Nat → Option Node → Option Node → Option Bool
  | 0, _, _ => none
  | rounds + 1, fastP, slowP => do
    let fast ← fastP
    if (next fast).isNone ∨ ((next fast).bind next).isNone then return false
    let slow ← slowP
    let fastP := (next fast).bind next
    let slowP := next slow
    if fastP = slowP then return true
    loop rounds fastP slowP

def listCircle (rounds : Nat) (root : Option Node) : Option Bool :=
  match root with
  | none => some false
  | some node => if (next node).isNone then some false else loop next rounds root root

def walk (root : Option Node) (k : Nat) : Option Node := (fun p => p.bind next)^[k] root

end

section
variable {Node : Type} {next : Node → Option Node} {root : Option Node} {a b k t m rounds : Nat}

theorem walk_succ (root : Option Node) (k : Nat) :
    walk next root (k + 1) = (walk next root k).bind next :=
  Function.iterate_succ_apply' _ k root

theorem walk_none_of_le (h : walk next root k = none) (hk : k ≤ m) : walk next root m = none := by
  induction m, hk using Nat.le_induction with
  | base => exact h
  | succ m _ ih => rw [walk_succ, ih, Option.bind_none]

theorem walk_ne_none (hab : a < b) (h : walk next root a = walk next root b)
    (hb : walk next root b ≠ none) : walk next root k ≠ none := by
  intro hk
  refine hb ?_
  have hround : walk next root (b + k * (b - a)) = walk next root b :=
    iterate_eq_of_le h hab.le hab.le k
  rw [← hround]
  refine walk_none_of_le hk ?_
  calc k ≤ k * (b - a) := Nat.le_mul_of_pos_right k (Nat.sub_pos_of_lt hab)
    _ ≤ b + k * (b - a) := Nat.le_add_left _ _

variable [DecidableEq Node]

theorem loop_walk (hfast : walk next root (2 * t) ≠ none) (hslow : walk next root t ≠ none) :
    loop next (rounds + 1) (walk next root (2 * t)) (walk next root t) =
      if walk next root (2 * (t + 1)) = none then some false
      else if walk next root (2 * (t + 1)) = walk next root (t + 1) then some true
      else loop next rounds (walk next root (2 * (t + 1))) (walk next root (t + 1)) := by
  obtain ⟨fast, hf⟩ := Option.ne_none_iff_exists'.mp hfast
  obtain ⟨slow, hs⟩ := Option.ne_none_iff_exists'.mp hslow
  have hfast' : walk next root (2 * (t + 1)) = (next fast).bind next := by
    rw [Nat.mul_succ, walk_succ, walk_succ, hf, Option.bind_some]
  have hslow' : walk next root (t + 1) = next slow := by rw [walk_succ, hs, Option.bind_some]
  have hnull : (next fast).isNone ∨ ((next fast).bind next).isNone ↔
      (next fast).bind next = none := by
    cases next fast <;> simp
  rw [hf, hs, hfast', hslow', loop]
  simp only [Option.bind_eq_bind, Option.bind_some, hnull]
  by_cases hnone : (next fast).bind next = none
  · rw [if_pos hnone, if_pos hnone]
    rfl
  · rw [if_neg hnone, if_neg hnone]
    rfl

theorem loop_of_end {N : Nat} (hend : walk next root N = none) (hfast : walk next root (2 * t) ≠ none)
    (hrounds : N < 2 * t + rounds) :
    loop next rounds (walk next root (2 * t)) (walk next root t) = some false := by
  induction rounds generalizing t with
  | zero => exact absurd (walk_none_of_le hend (by omega)) hfast
  | succ rounds ih =>
    have hslow : walk next root t ≠ none := fun h => hfast (walk_none_of_le h (by omega))
    rw [loop_walk hfast hslow]
    by_cases hnone : walk next root (2 * (t + 1)) = none
    · rw [if_pos hnone]
    · have hapart : walk next root (2 * (t + 1)) ≠ walk next root (t + 1) := fun heq =>
        walk_ne_none (by omega) heq.symm hnone hend
      rw [if_neg hnone, if_neg hapart]
      exact ih hnone (by omega)

theorem loop_of_circle (hnever : ∀ k, walk next root k ≠ none)
    (hmeet : walk next root (2 * m) = walk next root m) (htm : t < m) (hrounds : m ≤ t + rounds) :
    loop next rounds (walk next root (2 * t)) (walk next root t) = some true := by
  induction rounds generalizing t with
  | zero => omega
  | succ rounds ih =>
    rw [loop_walk (hnever _) (hnever _), if_neg (hnever _)]
    by_cases heq : walk next root (2 * (t + 1)) = walk next root (t + 1)
    · rw [if_pos heq]
    · rw [if_neg heq]
      have hne : t + 1 ≠ m := by
        rintro rfl
        exact heq hmeet
      exact ih (by omega) (by omega)

theorem listCircle_of_end {N : Nat} (hend : walk next root N = none) (hrounds : N < rounds) :
    listCircle next rounds root = some false := by
  cases root with
  | none => rfl
  | some node =>
    rw [listCircle]
    split
    · rfl
    · exact @loop_of_end Node next (some node) 0 rounds _ N hend (Option.some_ne_none node)
        (by omega)

theorem listCircle_of_circle (hnever : ∀ k, walk next root k ≠ none) (hpos : 0 < m)
    (hmeet : walk next root (2 * m) = walk next root m) (hrounds : m ≤ rounds) :
    listCircle next rounds root = some true := by
  cases root with
  | none => exact absurd rfl (hnever 0)
  | some node =>
    have hnext : ¬ (next node).isNone := by
      rw [Option.isNone_iff_eq_none]
      exact hnever 1
    rw [listCircle, if_neg hnext]
    exact @loop_of_circle Node next (some node) 0 m rounds _ hnever hmeet hpos (by omega)

/-- The function returns, and says whether following `next` never comes to
`NULL`. -/
theorem listCircle_iff [Finite Node] (next : Node → Option Node) (root : Option Node) :
    ∃ circle enough, (∀ rounds, enough ≤ rounds → listCircle next rounds root = some circle) ∧
      (circle = true ↔ ∀ k, walk next root k ≠ none) := by
  by_cases hnever : ∀ k, walk next root k ≠ none
  · obtain ⟨m, hpos, hmeet⟩ := exists_meeting (fun p : Option Node => p.bind next) root
    exact ⟨true, m, fun rounds => listCircle_of_circle hnever hpos hmeet, iff_of_true rfl hnever⟩
  · obtain ⟨N, hend⟩ := not_forall.mp hnever
    refine ⟨false, N + 1, fun rounds => listCircle_of_end (not_not.mp hend), ?_⟩
    exact iff_of_false Bool.false_ne_true hnever

/-- Three nodes, the last of which points back to the second. -/
theorem listCircle_iff_three :
    ∃ circle enough, (∀ rounds, enough ≤ rounds →
        listCircle (fun i : Fin 3 => some (if i = 2 then 1 else i + 1)) rounds (some 0) =
          some circle) ∧
      (circle = true ↔
        ∀ k, walk (fun i : Fin 3 => some (if i = 2 then 1 else i + 1)) (some 0) k ≠ none) :=
  listCircle_iff (fun i : Fin 3 => some (if i = 2 then 1 else i + 1)) (some 0)

end

end TextMining.ListCircle
