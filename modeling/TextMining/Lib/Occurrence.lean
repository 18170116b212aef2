import Mathlib.Data.List.Infix

/-!
# First occurrences

A text is cut at the first occurrence of a word. A word cannot reach across a
letter that it does not have.
-/

namespace TextMining.Occurrence

variable {α : Type*} [DecidableEq α]

/-- The text before and the text behind the first occurrence of a word. -/
def cut (w : List α) : List α → Option (List α × List α)
  | [] => if w = [] then some ([], []) else none
  | x :: t =>
    if w <+: x :: t then some ([], (x :: t).drop w.length)
    else (cut w t).map fun r => (x :: r.1, r.2)

section
variable {w t a b : List α} {x : α}

theorem cut_eq_none : cut w t = none ↔ ¬ w <:+: t := by
  induction t with
  | nil =>
    rw [cut, List.infix_nil]
    split <;> simp [*]
  | cons x t ih =>
    rw [cut, List.infix_cons_iff, not_or, ← ih]
    split
    · rename_i h
      exact iff_of_false nofun fun hn => hn.1 h
    · rename_i h
      rw [Option.map_eq_none_iff, and_iff_right h]

theorem cut_eq_some (h : cut w t = some (a, b)) :
    t = a ++ w ++ b ∧ ∀ j < a.length, ¬ w <+: t.drop j := by
  induction t generalizing a with
  | nil =>
    rw [cut] at h
    split at h
    · rename_i hw
      cases h
      exact ⟨by simp [hw], fun j hj => absurd hj (Nat.not_lt_zero j)⟩
    · cases h
  | cons x t ih =>
    rw [cut] at h
    split at h
    · rename_i hw
      cases h
      refine ⟨?_, fun j hj => absurd hj (Nat.not_lt_zero j)⟩
      obtain ⟨r, hr⟩ := hw
      rw [← hr, List.drop_left, List.nil_append]
    · rename_i hw
      obtain ⟨⟨a', b'⟩, hcut, he⟩ := Option.map_eq_some_iff.mp h
      cases he
      obtain ⟨ht, hfirst⟩ := ih hcut
      refine ⟨by rw [List.cons_append, List.cons_append, ← ht], fun j hj => ?_⟩
      cases j with
      | zero => exact hw
      | succ j => exact hfirst j (Nat.lt_of_succ_lt_succ hj)

theorem length_of_cut (h : cut w t = some (a, b)) : t.length = a.length + w.length + b.length := by
  rw [(cut_eq_some h).1, List.length_append, List.length_append]

theorem cut_eq_some_iff :
    cut w t = some (a, b) ↔ t = a ++ w ++ b ∧ ∀ j < a.length, ¬ w <+: t.drop j := by
  refine ⟨cut_eq_some, fun ⟨ht, hfirst⟩ => ?_⟩
  cases hcut : cut w t with
  | none => exact absurd ⟨a, b, ht.symm⟩ (cut_eq_none.mp hcut)
  | some r =>
    obtain ⟨a', b'⟩ := r
    obtain ⟨ht', hfirst'⟩ := cut_eq_some hcut
    have hpre : ∀ p q, t = p ++ w ++ q → w <+: t.drop p.length := by
      rintro p q rfl
      rw [List.append_assoc, List.drop_left]
      exact List.prefix_append w q
    have hlen : a'.length = a.length := by
      rcases Nat.lt_trichotomy a'.length a.length with hlt | heq | hlt
      · exact absurd (hpre a' b' ht') (hfirst _ hlt)
      · exact heq
      · exact absurd (hpre a b ht) (hfirst' _ hlt)
    rw [List.append_assoc] at ht ht'
    obtain ⟨rfl, hrest⟩ := List.append_inj (ht'.symm.trans ht) hlen
    rw [List.append_cancel_left hrest]

theorem cut_cons_of_ne {y : α} (h : x ≠ y) :
    cut (y :: w) (x :: t) = (cut (y :: w) t).map fun r => (x :: r.1, r.2) := by
  rw [cut, if_neg fun hp => h (List.cons_prefix_cons.mp hp).1.symm]

theorem cut_singleton (hx : x ∉ a) : cut [x] (a ++ x :: b) = some (a, b) := by
  induction a with
  | nil =>
    rw [List.nil_append, cut, if_pos ⟨b, rfl⟩]
    rfl
  | cons y a ih =>
    rw [List.mem_cons, not_or] at hx
    rw [List.cons_append, cut_cons_of_ne (Ne.symm hx.1), ih hx.2]
    rfl

/-- There is no occurrence in the text before the first one, nor one that
starts there. -/
theorem not_infix_of_cut (h : cut w t = some (a, b)) (hw : w ≠ []) : ¬ w <:+: a := by
  rintro ⟨p, q, rfl⟩
  obtain ⟨rfl, hfirst⟩ := cut_eq_some h
  refine hfirst p.length ?_ ?_
  · have := List.length_pos_iff.mpr hw
    simp only [List.length_append]
    omega
  · simp only [List.append_assoc, List.drop_left]
    exact List.prefix_append _ _

omit [DecidableEq α] in
theorem eq_nil_of_prefix_cons (hx : x ∉ w) (h : w <+: x :: b) : w = [] := by
  rcases List.prefix_cons_iff.mp h with rfl | ⟨t, rfl, -⟩
  · rfl
  · exact absurd List.mem_cons_self hx

omit [DecidableEq α] in
theorem infix_append_cons (hx : x ∉ w) : w <:+: a ++ x :: b ↔ w <:+: a ∨ w <:+: b := by
  rw [List.infix_append_iff, List.infix_cons_iff]
  constructor
  · rintro (h | (h | h) | ⟨l, r, rfl, hl, hr⟩)
    · exact .inl h
    · rw [eq_nil_of_prefix_cons hx h]
      exact .inl List.nil_infix
    · exact .inr h
    · have hnil := eq_nil_of_prefix_cons (fun hm => hx (List.mem_append_right l hm)) hr
      rw [hnil, List.append_nil]
      exact .inl hl.isInfix
  · rintro (h | h)
    · exact .inl h
    · exact .inr (.inl (.inr h))

end

end TextMining.Occurrence
