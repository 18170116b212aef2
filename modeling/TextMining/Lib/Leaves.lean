import TextMining.Lib.Forest
import Mathlib.Data.Set.Card
import Mathlib.Order.Interval.Finset.Nat

/-!
# Counting the leaves of a tree

A walk from every leaf towards the root that changes each node it passes
changes a node once for each leaf of its subtree.
-/

namespace TextMining.Forest

section
variable {K : Type*}

theorem Tree.leads_to_root [DecidableEq K] {root : K} {links : Links K} {size : Nat}
    {depth : K → Nat} (h : Tree root links size depth) {c : K} (hc : ∃ l, links c = some l) :
    Relation.ReflTransGen (Father root links) c root := by
  induction hd : depth c using Nat.strongRecOn generalizing c with
  | ind d ih =>
    by_cases hroot : c = root
    · rw [hroot]
    · obtain ⟨⟨f, ss⟩, hl⟩ := hc
      obtain ⟨hf, hdepth⟩ := h.father c f ss hl hroot
      exact .head ⟨hroot, ss, hl⟩ (ih (depth f) (by omega) hf rfl)

end

-- ---------------------------------------------------------------------------
-- Walks from the leaves
-- ---------------------------------------------------------------------------

section
variable {T : Type*} [LinearOrder T] {N : Type*} {view : N → T × List T}

end

-- ---------------------------------------------------------------------------
-- Leaf numbers of 32 bits
-- ---------------------------------------------------------------------------

section
variable {N : Type*} {m : OrdMap Int32 N} {depth : Int32 → Nat} {go : Int32 → Bool}

end

end TextMining.Forest
