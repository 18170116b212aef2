import Mathlib.Data.List.Infix

/-!
# Longest suffixes in a prefix-closed set of words

`longest p w` is the longest non-empty suffix of `w` that satisfies `p`, or
the empty word. `border p w` leaves `w` itself out: it is the failure
function of string matching. When `p` is closed under prefixes, the longest
suffix of `u ++ [c]` is found by walking the borders of the longest suffix
of `u` until one of them can be extended by `c`.
-/

namespace TextMining.Suffix

variable {α : Type*} (p q : List α → Prop) [DecidablePred p] [DecidablePred q]

def longest : List α → List α
  | [] => []
  | a :: w => if p (a :: w) then a :: w else longest w

/-- The longest proper suffix in `p`. -/
def border (w : List α) : List α := longest p w.tail

-- ---------------------------------------------------------------------------
-- The longest suffix
-- ---------------------------------------------------------------------------

@[simp] theorem longest_nil : longest p [] = [] := rfl

theorem longest_of_mem {p : List α → Prop} [DecidablePred p] {w : List α} (h : p w) :
    longest p w = w := by
  cases w <;> simp [longest, h]

theorem longest_suffix (w : List α) : longest p w <:+ w := by
  induction w with
  | nil => simp
  | cons a w ih =>
    unfold longest
    split
    · exact List.suffix_rfl
    · exact ih.trans (List.suffix_cons a w)

theorem longest_mem (w : List α) : longest p w = [] ∨ p (longest p w) := by
  induction w with
  | nil => simp
  | cons a w ih =>
    unfold longest
    split
    · rename_i h; exact .inr h
    · exact ih

theorem mem_of_longest_ne_nil {p : List α → Prop} [DecidablePred p] {w : List α}
    (h : longest p w ≠ []) : p (longest p w) :=
  (longest_mem p w).resolve_left h

theorem suffix_longest {p : List α → Prop} [DecidablePred p] {v w : List α}
    (hv : v <:+ w) (hp : p v) : v <:+ longest p w := by
  induction w with
  | nil => simpa using hv
  | cons a w ih =>
    unfold longest
    split
    · exact hv
    · rename_i hn
      rcases List.suffix_cons_iff.mp hv with rfl | hv
      · exact absurd hp hn
      · exact ih hv

theorem eq_longest {p : List α → Prop} [DecidablePred p] {v w : List α}
    (hv : v <:+ w) (hp : v = [] ∨ p v)
    (hmax : ∀ u, u <:+ w → p u → u <:+ v) : longest p w = v := by
  have hl : longest p w <:+ v := by
    rcases longest_mem p w with h | h
    · simp [h]
    · exact hmax _ (longest_suffix p w) h
  have hr : v <:+ longest p w := by
    rcases hp with rfl | hp
    · exact List.nil_suffix
    · exact suffix_longest hv hp
  exact hl.eq_of_length_le hr.length_le

theorem longest_longest {p q : List α → Prop} [DecidablePred p] [DecidablePred q]
    (hpq : ∀ v, p v → q v) (w : List α) : longest p (longest q w) = longest p w := by
  refine (eq_longest ?_ (longest_mem p _) ?_).symm
  · exact (longest_suffix p _).trans (longest_suffix q w)
  · intro u hu hp
    exact suffix_longest (suffix_longest hu (hpq u hp)) hp

-- ---------------------------------------------------------------------------
-- Borders
-- ---------------------------------------------------------------------------

theorem border_suffix (w : List α) : border p w <:+ w :=
  (longest_suffix p w.tail).trans (List.tail_suffix w)

theorem border_length {w : List α} (h : w ≠ []) : (border p w).length < w.length := by
  have hl := (longest_suffix p w.tail).length_le
  have hw : 0 < w.length := List.length_pos_iff.mpr h
  simp only [List.length_tail] at hl
  unfold border
  omega

theorem longest_eq_border {p : List α → Prop} [DecidablePred p] {w : List α} (h : ¬ p w) :
    longest p w = border p w := by
  cases w <;> simp [longest, border, h]

theorem suffix_border {p : List α → Prop} [DecidablePred p] {v w : List α}
    (hv : v <:+ w) (hne : v ≠ w) (hp : p v) : v <:+ border p w := by
  cases w with
  | nil => exact absurd (List.suffix_nil.mp hv) hne
  | cons a w => exact suffix_longest ((List.suffix_cons_iff.mp hv).resolve_left hne) hp

theorem suffix_iff_border {p : List α → Prop} [DecidablePred p] {v w : List α}
    (hv : p v) : v <:+ w ↔ v = w ∨ v <:+ border p w := by
  constructor
  · intro h
    by_cases he : v = w
    · exact .inl he
    · exact .inr (suffix_border h he hv)
  · rintro (rfl | h)
    · exact List.suffix_rfl
    · exact h.trans (border_suffix p w)

-- ---------------------------------------------------------------------------
-- Extending by one letter
-- ---------------------------------------------------------------------------

def PrefixClosed (p : List α → Prop) : Prop := ∀ v w, v <+: w → p w → p v

theorem PrefixClosed.of_append {p : List α → Prop} (hp : PrefixClosed p) {v : List α} {c : α}
    (h : p (v ++ [c])) : p v := hp _ _ (List.prefix_append v [c]) h

theorem suffix_concat_iff {v u : List α} {c : α} :
    v <:+ u ++ [c] ↔ v = [] ∨ ∃ v', v' <:+ u ∧ v = v' ++ [c] := by
  rw [List.suffix_concat_iff]
  constructor
  · rintro (h | ⟨t, h, ht⟩)
    · exact .inl h
    · exact .inr ⟨t, ht, by simpa using h⟩
  · rintro (h | ⟨t, ht, h⟩)
    · exact .inl h
    · exact .inr ⟨t, by simpa using h, ht⟩

/-- Extending by one letter only needs the longest suffix. -/
theorem longest_longest_concat {p : List α → Prop} [DecidablePred p] (hp : PrefixClosed p)
    (u : List α) (c : α) : longest p (longest p u ++ [c]) = longest p (u ++ [c]) := by
  refine (eq_longest ?_ (longest_mem p _) ?_).symm
  · rcases suffix_concat_iff.mp (longest_suffix p (longest p u ++ [c])) with h | ⟨v, hv, h⟩
    · simp [h]
    · rw [h]
      exact suffix_concat_iff.mpr (.inr ⟨v, hv.trans (longest_suffix p u), rfl⟩)
  · intro v hv hpv
    rcases suffix_concat_iff.mp hv with rfl | ⟨v', hv', rfl⟩
    · exact List.nil_suffix
    · have hlong : v' <:+ longest p u := suffix_longest hv' (hp.of_append hpv)
      exact suffix_longest (suffix_concat_iff.mpr (.inr ⟨v', hlong, rfl⟩)) hpv

theorem longest_concat_of_not_mem {p : List α → Prop} [DecidablePred p] (hp : PrefixClosed p)
    {w : List α} {c : α} (hw : w ≠ []) (h : ¬ p (w ++ [c])) :
    longest p (w ++ [c]) = longest p (border p w ++ [c]) := by
  obtain ⟨a, w, rfl⟩ := List.exists_cons_of_ne_nil hw
  rw [longest_eq_border h, border, border, longest_longest_concat hp]
  rfl

end TextMining.Suffix
