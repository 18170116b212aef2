import Mathlib.Data.List.Count

/-!
# Contingency tables

Two properties split a list into four cells. Three totals and one cell
determine the others.
-/

namespace TextMining.Contingency

variable {α : Type*}

/-- The number of elements with both, only the first, only the second and
neither of two properties. -/
structure Table where
  n11 : Nat
  n10 : Nat
  n01 : Nat
  n00 : Nat
  deriving DecidableEq, Repr

def table (p q : α → Bool) (l : List α) : Table :=
  { n11 := l.countP fun x => p x && q x
    n10 := l.countP fun x => p x && !q x
    n01 := l.countP fun x => !p x && q x
    n00 := l.countP fun x => !p x && !q x }

section
variable (p q : α → Bool) (l : List α)

theorem table_row : (table p q l).n11 + (table p q l).n10 = l.countP p := by
  induction l with
  | nil => rfl
  | cons x l ih =>
    simp only [table, List.countP_cons] at ih ⊢
    cases p x <;> cases q x <;> simp <;> omega

theorem table_column : (table p q l).n11 + (table p q l).n01 = l.countP q := by
  induction l with
  | nil => rfl
  | cons x l ih =>
    simp only [table, List.countP_cons] at ih ⊢
    cases p x <;> cases q x <;> simp <;> omega

theorem table_total :
    (table p q l).n11 + (table p q l).n10 + (table p q l).n01 + (table p q l).n00 = l.length := by
  induction l with
  | nil => rfl
  | cons x l ih =>
    simp only [table, List.countP_cons, List.length_cons] at ih ⊢
    cases p x <;> cases q x <;> simp <;> omega

end

end TextMining.Contingency
