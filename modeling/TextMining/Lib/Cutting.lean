import Mathlib.Data.List.Basic

/-!
# Cutting a list

A list is cut behind each item that ends a piece, and at its end.
-/

namespace TextMining.Cutting

variable {α : Type*} {ends : α → Bool} {pre xs : List α} {a : α}

/-- The pieces of `pre ++ xs`, where no item of `pre` ends a piece. -/
def cut (ends : α → Bool) : List α → List α → List (List α)
  | _, [] => []
  | pre, a :: rest =>
    if ends a || rest.isEmpty then (pre ++ [a]) :: cut ends [] rest else cut ends (pre ++ [a]) rest

structure CutAfter (ends : α → Bool) (xs : List α) (pieces : List (List α)) : Prop where
  flatten : pieces.flatten = xs
  ne_nil : ∀ p ∈ pieces, p ≠ []
  inner : ∀ p ∈ pieces, ∀ a ∈ p.dropLast, ends a = false
  ends : ∀ p ∈ pieces.dropLast, ∀ a, p.getLast? = some a → ends a = true

end TextMining.Cutting
