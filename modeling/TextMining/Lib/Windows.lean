import Mathlib.Data.List.Infix
import Mathlib.Data.Finset.Card

/-!
# Longest windows

A window is a contiguous part of a list. Where every part of a good window is
good, a scan only needs the longest good window that ends where it stands: the
longest of all is the longest of these.
-/

namespace TextMining.Windows

universe u

variable {α : Type u} {Good : List α → Prop} {d w w' : List α} {c x : α} {n : Nat}

def Hereditary (Good : List α → Prop) : Prop := ∀ ⦃v w⦄, v <:+: w → Good w → Good v

/-- `n` is the length of a longest good window. -/
structure Longest (Good : List α → Prop) (d : List α) (n : Nat) : Prop where
  exists_window : ∃ w, w <:+: d ∧ Good w ∧ w.length = n
  le : ∀ w, w <:+: d → Good w → w.length ≤ n

/-- `w` is the longest good window that ends where the list does. -/
structure LongestSuffix (Good : List α → Prop) (d w : List α) : Prop where
  suffix : w <:+ d
  good : Good w
  le : ∀ v, v <:+ d → Good v → v.length ≤ w.length

theorem longest_nil (h : Good []) : Longest Good [] 0 where
  exists_window := ⟨[], List.infix_refl [], h, rfl⟩
  le w hw _ := by rw [List.infix_nil.mp hw, List.length_nil]

theorem Longest.unique {m : Nat} (h : Longest Good d n) (h' : Longest Good d m) : n = m := by
  obtain ⟨w, hw, hgood, rfl⟩ := h.exists_window
  obtain ⟨w', hw', hgood', rfl⟩ := h'.exists_window
  exact Nat.le_antisymm (h'.le w hw hgood) (h.le w' hw' hgood')

theorem LongestSuffix.self (h : Good w) : LongestSuffix Good w w :=
  ⟨List.suffix_refl w, h, fun _ hv _ => hv.length_le⟩

theorem suffix_append_right {v w : List α} (h : v <:+ w) (c : α) : v ++ [c] <:+ w ++ [c] := by
  obtain ⟨pre, rfl⟩ := h
  exact ⟨pre, (List.append_assoc pre v [c]).symm⟩

theorem Longest.concat (h : Longest Good d n) (hw : LongestSuffix Good (d ++ [c]) w) :
    Longest Good (d ++ [c]) (max n w.length) where
  exists_window := by
    rcases Nat.le_total n w.length with hle | hle
    · exact ⟨w, hw.suffix.isInfix, hw.good, (Nat.max_eq_right hle).symm⟩
    · obtain ⟨v, hv, hgood, hlen⟩ := h.exists_window
      refine ⟨v, hv.trans (List.infix_append' [] d [c]), hgood, ?_⟩
      rw [Nat.max_eq_left hle, hlen]
  le v hv hgood := by
    rcases List.infix_concat_iff.mp hv with hv | hv
    · exact (hw.le v hv hgood).trans (Nat.le_max_right _ _)
    · exact (h.le v hv hgood).trans (Nat.le_max_left _ _)

theorem LongestSuffix.concat (hg : Hereditary Good) (h : LongestSuffix Good d w)
    (hw : LongestSuffix Good (w ++ [c]) w') : LongestSuffix Good (d ++ [c]) w' where
  suffix := hw.suffix.trans (suffix_append_right h.suffix c)
  good := hw.good
  le v hv hgood := by
    refine hw.le v ?_ hgood
    rcases List.suffix_concat_iff.mp hv with rfl | ⟨u, rfl, hu⟩
    · exact List.nil_suffix
    · have hlen := h.le u hu (hg (List.infix_append' [] u [c]) hgood)
      have huw : u <:+ w := List.suffix_of_suffix_length_le hu h.suffix hlen
      exact suffix_append_right huw c

theorem longestSuffix_of_cons (hg : Hereditary Good) (hw : Good w) (hx : ¬ Good (x :: w))
    (pre : List α) : LongestSuffix Good (pre ++ x :: w) w where
  suffix := (List.suffix_cons x w).trans (List.suffix_append pre (x :: w))
  good := hw
  le v hv hgood := by
    refine Nat.le_of_not_lt fun hlt => hx ?_
    have hxw : x :: w <:+ v :=
      List.suffix_of_suffix_length_le (List.suffix_append pre (x :: w)) hv hlt
    exact hg hxw.isInfix hgood

theorem LongestSuffix.cons (h : LongestSuffix Good d w) (hx : ¬ Good (x :: d)) :
    LongestSuffix Good (x :: d) w where
  suffix := h.suffix.trans (List.suffix_cons x d)
  good := h.good
  le v hv hgood := by
    rcases List.suffix_cons_iff.mp hv with rfl | hv
    · exact absurd hgood hx
    · exact h.le v hv hgood

-- ---------------------------------------------------------------------------
-- At most two values
-- ---------------------------------------------------------------------------

variable [DecidableEq α]

def AtMostTwo (w : List α) : Prop := w.toFinset.card ≤ 2

theorem hereditary_atMostTwo : Hereditary (AtMostTwo (α := α)) := by
  intro v w hv hw
  refine (Finset.card_le_card ?_).trans hw
  intro x hx
  exact List.mem_toFinset.mpr (hv.subset (List.mem_toFinset.mp hx))

theorem atMostTwo_of_forall {a b : α} (h : ∀ c ∈ w, c = a ∨ c = b) : AtMostTwo w := by
  have hsub : w.toFinset ⊆ {a, b} := fun c hc => by
    simpa using h c (List.mem_toFinset.mp hc)
  exact (Finset.card_le_card hsub).trans Finset.card_le_two

theorem not_atMostTwo_of_mem {a b : α} (ha : a ∈ w) (hb : b ∈ w) (hc : c ∈ w) (hab : a ≠ b)
    (hac : a ≠ c) (hbc : b ≠ c) : ¬ AtMostTwo w := by
  intro h
  have hsub : ({a, b, c} : Finset α) ⊆ w.toFinset := by
    intro y hy
    simp only [Finset.mem_insert, Finset.mem_singleton] at hy
    rcases hy with rfl | rfl | rfl <;> exact List.mem_toFinset.mpr ‹_›
  have hcard : ({a, b, c} : Finset α).card = 3 :=
    Finset.card_eq_three.mpr ⟨a, b, c, hab, hac, hbc, rfl⟩
  have hle := (Finset.card_le_card hsub).trans h
  omega

end TextMining.Windows
