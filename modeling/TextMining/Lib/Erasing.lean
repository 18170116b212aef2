import Mathlib.Data.List.Infix

/-!
# Erasing pieces of a text

A scanner finds the next piece of a text. Each piece is replaced by one letter,
and the search goes on a number of letters behind the piece: the letters that
are skipped stay in the text, also when a piece begins among them.
-/

namespace TextMining

variable {α : Type*}

/-- Finds what lies before a piece, the piece and what lies behind it. -/
structure Scanner (α : Type*) where
  next : List α → Option (List α × List α × List α)
  split : ∀ {t a l r}, next t = some (a, l, r) → t = a ++ l ++ r
  nonempty : ∀ {t a l r}, next t = some (a, l, r) → l ≠ []

namespace Scanner

theorem length_lt {s : Scanner α} {t a l r : List α} (h : s.next t = some (a, l, r)) (k : Nat) :
    (r.drop k).length < t.length := by
  have hl := List.length_pos_iff.mpr (s.nonempty h)
  rw [s.split h, List.length_drop, List.length_append, List.length_append]
  omega

/-- The parts of the text that are left, before, between and behind the
pieces. -/
def kept (s : Scanner α) (skip : List α → Nat) (t : List α) : List (List α) :=
  match _h : s.next t with
  | none => [t]
  | some (a, l, r) =>
    a :: (kept s skip (r.drop (skip l))).modifyHead (r.take (skip l) ++ ·)
termination_by t.length
decreasing_by exact length_lt _h _

/-- The text with the letter `x` for each piece. -/
def erase (s : Scanner α) (x : α) (skip : List α → Nat) (t : List α) : List α :=
  [x].intercalate (s.kept skip t)

section
variable {s : Scanner α} {x : α} {skip : List α → Nat} {t a l r u : List α}

theorem kept_of_none (h : s.next t = none) : s.kept skip t = [t] := by
  rw [kept]
  split
  · rfl
  · rename_i h'
    cases h.symm.trans h'

theorem kept_of_some (h : s.next t = some (a, l, r)) :
    s.kept skip t = a :: (s.kept skip (r.drop (skip l))).modifyHead (r.take (skip l) ++ ·) := by
  rw [kept]
  split
  · rename_i h'
    cases h.symm.trans h'
  · rename_i h'
    cases h.symm.trans h'
    rfl

theorem exists_kept (s : Scanner α) (skip : List α → Nat) (t : List α) :
    ∃ g gs, s.kept skip t = g :: gs := by
  cases h : s.next t with
  | none => exact ⟨_, _, kept_of_none h⟩
  | some p => exact ⟨_, _, kept_of_some h⟩

theorem erase_of_none (h : s.next t = none) : s.erase x skip t = t := by
  rw [erase, kept_of_none h, List.intercalate_singleton]

theorem erase_of_some (h : s.next t = some (a, l, r)) :
    s.erase x skip t = a ++ x :: (r.take (skip l) ++ s.erase x skip (r.drop (skip l))) := by
  obtain ⟨g, gs, hrest⟩ := s.exists_kept skip (r.drop (skip l))
  rw [erase, kept_of_some h, erase, hrest, List.modifyHead_cons, List.intercalate_cons_cons]
  cases gs with
  | nil => simp
  | cons g' gs => simp [List.intercalate_cons_cons]

end

end Scanner

/-- The second text is the first with `n` pieces replaced by one letter each. -/
inductive Blanked (piece : List α → Prop) (x : α) : List α → List α → Nat → Prop
  | keep (t) : Blanked piece x t t 0
  | erase (a) {l t s n} : piece l → Blanked piece x t s n →
      Blanked piece x (a ++ l ++ t) (a ++ x :: s) (n + 1)

theorem Blanked.append {piece : List α → Prop} {x : α} {t s : List α} {n : Nat}
    (h : Blanked piece x t s n) (u : List α) : Blanked piece x (u ++ t) (u ++ s) n := by
  cases h with
  | keep => exact .keep _
  | erase a hl hrest =>
    have hall := Blanked.erase (u ++ a) hl hrest
    simpa only [List.append_assoc] using hall

theorem Scanner.erase_blanked {s : Scanner α} {x : α} {skip : List α → Nat} {piece : List α → Prop}
    (hpiece : ∀ t a l r, s.next t = some (a, l, r) → piece l) (t : List α) :
    Blanked piece x t (s.erase x skip t) ((s.kept skip t).length - 1) := by
  induction hn : t.length using Nat.strong_induction_on generalizing t with
  | _ n ih =>
    cases h : s.next t with
    | none =>
      rw [erase_of_none h, kept_of_none h]
      exact .keep t
    | some p =>
      obtain ⟨a, l, r⟩ := p
      have hrest := ih _ (hn ▸ length_lt h (skip l)) (r.drop (skip l)) rfl
      have hall := Blanked.erase a (hpiece _ _ _ _ h) (hrest.append (r.take (skip l)))
      obtain ⟨g, gs, hkept⟩ := s.exists_kept skip (r.drop (skip l))
      rw [List.take_append_drop, ← s.split h, ← erase_of_some h, hkept] at hall
      rwa [kept_of_some h, hkept]

end TextMining
