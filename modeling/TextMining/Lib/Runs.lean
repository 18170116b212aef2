import Mathlib.Data.List.Induction

/-!
# Runs of marked cells

A scan that writes a label for each cell it does not skip, and keeps a flag
that says whether the next marked cell begins a run.
-/

namespace TextMining.Runs

inductive Label where
  | begin
  | inside
  | outside
  deriving DecidableEq, Repr

variable {α : Type*} (skip marked : α → Bool)

def labels : Bool → List α → List (α × Label)
  | _, [] => []
  | flag, x :: xs =>
    if skip x then labels flag xs
    else if marked x then (x, if flag then .begin else .inside) :: labels false xs
    else (x, .outside) :: labels true xs

/-- The flag behind some cells: the last one that is not skipped sets it. -/
def flagAfter : Bool → List α → Bool
  | flag, [] => flag
  | flag, x :: xs => flagAfter (if skip x then flag else !marked x) xs

section
variable {skip marked} {flag : Bool} {x : α} {before after : List α}

theorem flagAfter_append :
    flagAfter skip marked flag (before ++ after) =
      flagAfter skip marked (flagAfter skip marked flag before) after := by
  induction before generalizing flag with
  | nil => rfl
  | cons x before ih => exact ih

theorem flagAfter_of_skip (h : ∀ y ∈ after, skip y = true) :
    flagAfter skip marked flag after = flag := by
  induction after with
  | nil => rfl
  | cons y after ih =>
    rw [flagAfter, if_pos (h y List.mem_cons_self)]
    exact ih fun z hz => h z (List.mem_cons_of_mem y hz)

theorem flagAfter_eq_false (hx : skip x = false) (hm : marked x = true)
    (h : ∀ y ∈ after, skip y = true) :
    flagAfter skip marked flag (before ++ x :: after) = false := by
  rw [flagAfter_append, flagAfter, hx, if_neg Bool.false_ne_true, hm, flagAfter_of_skip h]
  rfl

theorem flagAfter_eq_true (h : ∀ b x a, before = b ++ x :: a → skip x = false →
    (∀ y ∈ a, skip y = true) → marked x = false) :
    flagAfter skip marked true before = true := by
  induction before using List.reverseRecOn with
  | nil => rfl
  | append_singleton before x ih =>
    rw [flagAfter_append, flagAfter, flagAfter]
    cases hx : skip x with
    | true =>
      rw [if_pos rfl]
      refine ih fun b y a hb hy ha => h b y (a ++ [x]) ?_ hy fun z hz => ?_
      · rw [hb, List.append_assoc, List.cons_append]
      · rcases List.mem_append.mp hz with hz | hz
        · exact ha z hz
        · rw [List.mem_singleton.mp hz]
          exact hx
    | false =>
      rw [if_neg Bool.false_ne_true, h before x [] rfl hx fun y hy => absurd hy List.not_mem_nil]
      rfl

variable (marked) in
def labelOf (flag : Bool) (x : α) : Label :=
  if marked x then if flag then .begin else .inside else .outside

theorem labels_cons : labels skip marked flag (x :: after) =
    (if skip x then [] else [(x, labelOf marked flag x)]) ++
      labels skip marked (flagAfter skip marked flag [x]) after := by
  rw [labels, flagAfter, flagAfter, labelOf]
  cases skip x with
  | true => rfl
  | false =>
    cases marked x with
    | true => rfl
    | false => rfl

theorem labels_sublist :
    ((labels skip marked flag before).map Prod.fst).Sublist before := by
  induction before generalizing flag with
  | nil => exact .slnil
  | cons x before ih =>
    rw [labels_cons, List.map_append]
    split
    · exact .cons x ih
    · exact .cons_cons x ih

theorem mem_labels {e : α × Label} : e ∈ labels skip marked flag before ↔
    ∃ b a, before = b ++ e.1 :: a ∧ skip e.1 = false ∧
      e.2 = labelOf marked (flagAfter skip marked flag b) e.1 := by
  induction before generalizing flag with
  | nil =>
    refine iff_of_false List.not_mem_nil ?_
    rintro ⟨b, a, hl, -⟩
    cases List.append_eq_nil_iff.mp hl.symm with
    | intro _ h => cases h
  | cons x before ih =>
    rw [labels_cons, List.mem_append, ih]
    constructor
    · rintro (h | ⟨b, a, rfl, hskip, hlabel⟩)
      · split at h
        · cases h
        · rename_i hx
          rw [List.mem_singleton.mp h]
          exact ⟨[], before, rfl, Bool.eq_false_iff.mpr hx, rfl⟩
      · exact ⟨x :: b, a, rfl, hskip, hlabel⟩
    · rintro ⟨b, a, hl, hskip, hlabel⟩
      cases b with
      | nil =>
        obtain ⟨rfl, rfl⟩ := List.cons.inj hl
        rw [hskip, if_neg Bool.false_ne_true, List.mem_singleton]
        exact .inl (Prod.ext rfl hlabel)
      | cons y b =>
        obtain ⟨rfl, rfl⟩ := List.cons.inj hl
        exact .inr ⟨b, a, rfl, hskip, hlabel⟩

end

end TextMining.Runs
