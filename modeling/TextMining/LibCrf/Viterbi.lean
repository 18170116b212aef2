import TextMining.LibCrf.Tag
import TextMining.Lib.Trellis
import Mathlib.Algebra.Order.Ring.Int
import Mathlib.Data.List.Induction
import Mathlib.Tactic.Ring
import Mathlib.Tactic.Linarith

/-!
# The best tagging

`viterbi` finds a sequence of labels with the highest score of all, provided
that no sum of costs leaves the range of an `int`.
-/

namespace TextMining.LibCrf

open Trellis

theorem int_of_abs {x : Int} (h : |x| < 2147483648) : int x = x := by
  have hx := abs_lt.mp h
  exact Int.bmod_eq_of_le (by omega) (by omega)

namespace CrfTag

variable {t : CrfTag} {B : Int} {x y n : Nat} {us ys : List Nat}

def scores (t : CrfTag) : Scores Int where
  width := t.ysize
  node x y := (t.nodeAt x y).cost
  step := t.pathCost

/-- Costs so small that no sum along a tagging leaves the range of an `int`. -/
structure Small (t : CrfTag) (B : Int) : Prop where
  width : ∀ row ∈ t.node, row.length = t.ysize
  cost_le : ∀ x y, |(t.nodeAt x y).cost| ≤ B
  path_le : ∀ y y', |t.pathCost y y'| ≤ B
  fits : 2 * t.wordNum * B < 2147483648

theorem small_of_forall (hB : 0 ≤ B) (hwidth : ∀ row ∈ t.node, row.length = t.ysize)
    (hcost : ∀ row ∈ t.node, ∀ nd ∈ row, |nd.cost| ≤ B) (halpha : ∀ a ∈ t.alpha, |a| ≤ B)
    (hfits : 2 * t.wordNum * B < 2147483648) : t.Small B := by
  refine ⟨hwidth, fun x y => ?_, fun y y' => ?_, hfits⟩
  · rw [nodeAt]
    cases hrow : t.node[x]? with
    | none => simpa using hB
    | some row =>
      cases hnd : row[y]? with
      | none => simpa [hnd] using hB
      | some nd =>
        simpa [hnd] using hcost row (List.mem_of_getElem? hrow) nd (List.mem_of_getElem? hnd)
  · rw [pathCost]
    cases ha : t.alpha[y * t.ysize + y']? with
    | none => simpa using hB
    | some a => simpa using halpha a (List.mem_of_getElem? ha)

theorem Small.nonneg (h : t.Small B) : 0 ≤ B := (abs_nonneg _).trans (h.cost_le 0 0)

theorem Small.tail_abs (h : t.Small B) (x y : Nat) (ys : List Nat) :
    |tail t.scores x y ys| ≤ 2 * ys.length * B := by
  induction ys generalizing x y with
  | nil => simp [tail]
  | cons y' ys ih =>
    have hstep := h.path_le y y'
    have hnode := h.cost_le (x + 1) y'
    have hrest := ih (x + 1) y'
    have hadd := abs_add_three (t.pathCost y y') (t.nodeAt (x + 1) y').cost
      (tail t.scores (x + 1) y' ys)
    have hlen : (2 * ((y' :: ys).length : Int) * B) = B + B + 2 * ys.length * B := by
      push_cast [List.length_cons]
      ring
    rw [hlen]
    exact hadd.trans (add_le_add (add_le_add hstep hnode) hrest)

theorem Small.score_abs (h : t.Small B) (x y : Nat) (ys : List Nat) :
    |score t.scores x (y :: ys)| ≤ (2 * ys.length + 1) * B := by
  have hadd := abs_add_le (t.nodeAt x y).cost (tail t.scores x y ys)
  have hnode := h.cost_le x y
  have htail := h.tail_abs x y ys
  calc |score t.scores x (y :: ys)| ≤ |(t.nodeAt x y).cost| + |tail t.scores x y ys| := hadd
    _ ≤ B + 2 * ys.length * B := add_le_add hnode htail
    _ = (2 * ys.length + 1) * B := by ring

theorem Small.isBest_abs (h : t.Small B) {b : Int} (hb : IsBest t.scores x y b) :
    |b| ≤ (2 * x + 1) * B := by
  obtain ⟨us, hus, rfl⟩ := hb.attained
  have hlen := (mem_sequences.mp hus).1
  cases us with
  | nil =>
    have hone := h.score_abs 0 y []
    cases hlen
    simpa using hone
  | cons u us =>
    have hall := h.score_abs 0 u (us ++ [y])
    rw [List.length_append, List.length_singleton] at hall
    rw [List.length_cons] at hlen
    rw [List.cons_append, ← hlen]
    exact hall

theorem Small.fits_of_le (h : t.Small B) {a : Int} (hn : n ≤ t.wordNum) (ha : |a| ≤ 2 * n * B) :
    int a = a := by
  apply int_of_abs
  have hle : 2 * (n : Int) * B ≤ 2 * t.wordNum * B :=
    mul_le_mul_of_nonneg_right (by omega) h.nonneg
  exact (ha.trans hle).trans_lt h.fits

-- ---------------------------------------------------------------------------
-- The forward loop
-- ---------------------------------------------------------------------------

variable {before row : List Node} {nd : Node}

/-- What the loop leaves in row `x`, where `before` is the row before. -/
structure Forward (t : CrfTag) (x : Nat) (before row : List Node) : Prop where
  length : row.length = t.ysize
  cost : ∀ y nd, row[y]? = some nd → nd.cost = (t.nodeAt x y).cost
  best : ∀ y nd, row[y]? = some nd → IsBest t.scores x y nd.bestCost
  prev : ∀ y nd, row[y]? = some nd → 0 < x → ∃ k nk, nd.prev = some k ∧ before[k]? = some nk ∧
    nk.bestCost + t.pathCost k y + nd.cost = nd.bestCost

def Chained (t : CrfTag) : List (List Node) → Prop
  | [] => True
  | row :: rows => t.Forward rows.length (rows.head?.getD []) row ∧ Chained t rows

theorem viterbiNode_first (t : CrfTag) (nd : Node) (y : Nat) :
    t.viterbiNode [] nd y = { nd with prev := none, bestCost := nd.cost } := by
  simp [viterbiNode, best]

theorem best_eq (t : CrfTag) (before : List Node) (cost : Int) (j : Nat) :
    t.best before cost j = firstBest intMin (before.zipIdx.map fun n =>
      (int (int (n.1.bestCost + t.pathCost n.2 j) + cost), n.2)) := by
  rw [best, firstBest, List.foldl_map]

theorem Forward.node (h : t.Small B) {before' : List Node} (hf : t.Forward x before' before)
    (hx : x + 1 < t.wordNum) (hwidth : 0 < t.ysize) (hcost : nd.cost = (t.nodeAt (x + 1) y).cost) :
    ∃ k nk, before[k]? = some nk ∧ t.viterbiNode before nd y =
        { nd with prev := some k, bestCost := nk.bestCost + t.pathCost k y + nd.cost } ∧
      IsBest t.scores (x + 1) y (nk.bestCost + t.pathCost k y + nd.cost) := by
  have hB := h.nonneg
  -- none of the sums leaves the range
  have hsum : ∀ k nk, before[k]? = some nk →
      int (int (nk.bestCost + t.pathCost k y) + nd.cost) = nk.bestCost + t.pathCost k y + nd.cost ∧
        intMin < nk.bestCost + t.pathCost k y + nd.cost := by
    intro k nk hk
    have hbest := h.isBest_abs (hf.best k nk hk)
    have hpath := h.path_le k y
    have hnode := h.cost_le (x + 1) y
    rw [← hcost] at hnode
    have hone := (abs_add_le nk.bestCost (t.pathCost k y)).trans (add_le_add hbest hpath)
    have htwo := (abs_add_le (nk.bestCost + t.pathCost k y) nd.cost).trans (add_le_add hone hnode)
    have hint : int (nk.bestCost + t.pathCost k y) = nk.bestCost + t.pathCost k y := by
      apply h.fits_of_le (n := x + 1) (by omega)
      push_cast
      linarith
    have hint' : int (nk.bestCost + t.pathCost k y + nd.cost) =
        nk.bestCost + t.pathCost k y + nd.cost := by
      apply h.fits_of_le (n := x + 2) (by omega)
      push_cast
      linarith
    refine ⟨by rw [hint, hint'], ?_⟩
    have hlt : |nk.bestCost + t.pathCost k y + nd.cost| < 2147483648 := by
      have hle : 2 * ((x + 2 : Nat) : Int) * B ≤ 2 * t.wordNum * B :=
        mul_le_mul_of_nonneg_right (by omega) hB
      have hfits := h.fits
      push_cast at hle
      linarith
    exact (abs_lt.mp hlt).1
  have hlen : 0 < before.length := hf.length.symm ▸ hwidth
  -- the loop over the row before finds its highest sum
  obtain ⟨v, hv, hfirst, hmax⟩ := firstBest_spec intMin (before.zipIdx.map fun n =>
      (int (int (n.1.bestCost + t.pathCost n.2 y) + nd.cost), n.2)) (by
    refine ⟨_, List.mem_map_of_mem (List.mem_zipIdx_iff_getElem?.mpr
      (List.getElem?_eq_getElem hlen) : (before[0], 0) ∈ before.zipIdx), ?_⟩
    have hzero := hsum 0 before[0] (List.getElem?_eq_getElem hlen)
    simpa [hzero.1] using hzero.2)
  obtain ⟨⟨nk, k⟩, hk, rfl⟩ := List.mem_map.mp hv
  have hk := List.mem_zipIdx_iff_getElem?.mp hk
  simp only [(hsum k nk hk).1] at hfirst hmax
  refine ⟨k, nk, hk, ?_, ?_⟩
  · rw [viterbiNode, best_eq, hfirst]
  · have hget : ∀ k < t.ysize, ∃ nk, before[k]? = some nk := fun k hk =>
      ⟨_, List.getElem?_eq_getElem (hf.length.symm ▸ hk)⟩
    apply IsBest.step fun k => (before[k]?.getD ⟨0, 0, none⟩).bestCost
    · intro k hk
      obtain ⟨nk, hnk⟩ := hget k hk
      simpa [hnk] using hf.best k nk hnk
    · intro k' hk'
      obtain ⟨nk', hnk'⟩ := hget k' hk'
      have hle := hmax _ (List.mem_map_of_mem (List.mem_zipIdx_iff_getElem?.mpr hnk' :
        (nk', k') ∈ before.zipIdx))
      simp only [(hsum k' nk' hnk').1] at hle
      simpa [hnk', scores, hcost] using hle
    · obtain ⟨hlt, -⟩ := List.getElem?_eq_some_iff.mp hk
      refine ⟨k, hlt.trans_eq hf.length, ?_⟩
      simp [hk, scores, hcost]

theorem nodeAt_eq (t : CrfTag) (hrow : t.node[x]? = some row) (hnd : row[y]? = some nd) :
    t.nodeAt x y = nd := by
  simp [nodeAt, hrow, hnd]

theorem forward_row (h : t.Small B) (hwidth : 0 < t.ysize) (hrow : t.node[x]? = some row)
    {done : List (List Node)} (hdone : done.length = x) (hc : t.Chained done) :
    t.Forward x (done.head?.getD [])
      (row.mapIdx fun j nd => t.viterbiNode (done.head?.getD []) nd j) := by
  have hlen := h.width row (List.mem_of_getElem? hrow)
  have hx : x < t.wordNum := (List.getElem?_eq_some_iff.mp hrow).1
  have hsome : ∀ y nd', (row.mapIdx fun j nd => t.viterbiNode (done.head?.getD []) nd j)[y]? =
      some nd' → ∃ nd, nd.cost = (t.nodeAt x y).cost ∧
        nd' = t.viterbiNode (done.head?.getD []) nd y := by
    intro y nd' hnd'
    rw [List.getElem?_mapIdx] at hnd'
    obtain ⟨nd, hnd, rfl⟩ := Option.map_eq_some_iff.mp hnd'
    exact ⟨nd, by rw [t.nodeAt_eq hrow hnd], rfl⟩
  cases done with
  | nil =>
    cases hdone
    refine ⟨by simpa using hlen, fun y nd' hnd' => ?_, fun y nd' hnd' => ?_, by simp⟩
    · obtain ⟨nd, hcost, rfl⟩ := hsome y nd' hnd'
      rwa [List.head?_nil, Option.getD_none, viterbiNode_first]
    · obtain ⟨nd, hcost, rfl⟩ := hsome y nd' hnd'
      rw [List.head?_nil, Option.getD_none, viterbiNode_first, hcost]
      exact isBest_zero
  | cons before done =>
    cases hdone
    have hnode : ∀ y nd', (row.mapIdx fun j nd => t.viterbiNode before nd j)[y]? = some nd' →
        ∃ k nk, ∃ nd : Node, before[k]? = some nk ∧ nd.cost = (t.nodeAt (done.length + 1) y).cost ∧
          nd' = { nd with prev := some k, bestCost := nk.bestCost + t.pathCost k y + nd.cost } ∧
          IsBest t.scores (done.length + 1) y (nk.bestCost + t.pathCost k y + nd.cost) := by
      intro y nd' hnd'
      obtain ⟨nd, hcost, rfl⟩ := hsome y nd' hnd'
      obtain ⟨k, nk, hk, heq, hbest⟩ := hc.1.node h hx hwidth hcost
      exact ⟨k, nk, nd, hk, hcost, heq, hbest⟩
    refine ⟨by simpa using hlen, fun y nd' hnd' => ?_, fun y nd' hnd' => ?_, fun y nd' hnd' _ => ?_⟩
    · obtain ⟨k, nk, nd, hk, hcost, rfl, hbest⟩ := hnode y nd' hnd'
      exact hcost
    · obtain ⟨k, nk, nd, hk, hcost, rfl, hbest⟩ := hnode y nd' hnd'
      exact hbest
    · obtain ⟨k, nk, nd, hk, hcost, rfl, hbest⟩ := hnode y nd' hnd'
      exact ⟨k, nk, rfl, hk, rfl⟩

theorem chained_viterbiRows (h : t.Small B) (hwidth : 0 < t.ysize) {rows done : List (List Node)}
    (hrows : t.node.drop done.length = rows) (hc : t.Chained done) :
    t.Chained ((t.viterbiRows (done.head?.getD []) rows).reverse ++ done) := by
  induction rows generalizing done with
  | nil => simpa [viterbiRows] using hc
  | cons row rows ih =>
    have hrow : t.node[done.length]? = some row := by
      rw [← Nat.add_zero done.length, ← List.getElem?_drop, hrows]
      rfl
    have hrest : t.node.drop (done.length + 1) = rows := by
      rw [← List.drop_drop, hrows]
      rfl
    have hchain : t.Chained (_ :: done) := ⟨forward_row h hwidth hrow rfl hc, hc⟩
    have hnext := @ih (_ :: done) hrest hchain
    rw [viterbiRows, List.reverse_cons, List.append_assoc, List.singleton_append]
    exact hnext

-- ---------------------------------------------------------------------------
-- The way back
-- ---------------------------------------------------------------------------

variable {rows : List (List Node)} {result : List Nat}

def numbered : Nat → List Nat → List (Nat × Nat)
  | _, [] => []
  | x, y :: ys => (x, y) :: numbered (x + 1) ys

theorem numbered_append (x : Nat) (ys zs : List Nat) :
    numbered x (ys ++ zs) = numbered x ys ++ numbered (x + ys.length) zs := by
  induction ys generalizing x with
  | nil => simp [numbered]
  | cons y ys ih =>
    have hlen : x + 1 + ys.length = x + (ys.length + 1) := by omega
    simp [numbered, ih, hlen]

theorem writeResult_numbered (h : x + ys.length ≤ result.length) :
    writeResult result (numbered x ys) = result.take x ++ ys ++ result.drop (x + ys.length) := by
  induction ys generalizing result x with
  | nil => simp [numbered, writeResult]
  | cons y ys ih =>
    have hlt : x < result.length := by
      rw [List.length_cons] at h
      omega
    have hset : result.set x y = result.take x ++ y :: result.drop (x + 1) :=
      List.set_eq_take_append_cons_drop.trans (if_pos hlt)
    have htake : (result.take x).length = x := List.length_take_of_le hlt.le
    have hstep := @ih (x + 1) (result.set x y) (by simp at h ⊢; omega)
    rw [numbered, writeResult, List.foldl_cons]
    refine hstep.trans ?_
    rw [hset, List.take_append, List.drop_append, htake]
    have hdrop : x + 1 + ys.length - x = ys.length + 1 := by omega
    have hlen : x + (ys.length + 1) = x + 1 + ys.length := by omega
    have hnil : (result.take x).drop (x + 1 + ys.length) = [] :=
      List.drop_eq_nil_of_le (htake.le.trans (by omega))
    have htt : (result.take x).take (x + 1) = result.take x :=
      List.take_of_length_le (htake.le.trans (Nat.le_succ x))
    simp [hdrop, hlen, hnil, htt]

theorem writeResult_reverse (h : ys.length ≤ result.length) :
    writeResult result (numbered 0 ys).reverse = ys ++ result.drop ys.length := by
  induction ys using List.reverseRecOn generalizing result with
  | nil => simp [numbered, writeResult]
  | append_singleton ys y ih =>
    rw [List.length_append, List.length_singleton] at h
    have hset : result.set ys.length y = result.take ys.length ++ y :: result.drop (ys.length + 1) :=
      List.set_eq_take_append_cons_drop.trans (if_pos h)
    have htake : (result.take ys.length).length = ys.length := List.length_take_of_le (by omega)
    have hstep := @ih (result.set ys.length y) (by simp; omega)
    rw [numbered_append, List.reverse_append, writeResult, List.foldl_append]
    have hlast : (numbered (0 + ys.length) [y]).reverse.foldl
        (fun result n => result.set n.1 n.2) result = result.set ys.length y := by
      simp [numbered]
    rw [hlast]
    refine hstep.trans ?_
    rw [hset, List.drop_append_of_le_length htake.ge, List.drop_eq_nil_of_le htake.le]
    simp

theorem follow_spec {nd : Node} (hc : t.Chained (row :: rows)) (hnd : row[y]? = some nd) :
    ∃ us ∈ sequences t.scores rows.length,
      follow (row :: rows) y = (numbered 0 (us ++ [y])).reverse ∧
        score t.scores 0 (us ++ [y]) = nd.bestCost := by
  induction rows generalizing row y nd with
  | nil =>
    refine ⟨[], List.mem_singleton_self [], ?_, ?_⟩
    · cases hprev : nd.prev <;> simp [follow, hnd, hprev, numbered]
    · have hone : score t.scores 0 ([] ++ [y]) = t.scores.node 0 y := by simp [score, tail]
      rw [hone]
      exact isBest_zero.unique (hc.1.best y nd hnd)
  | cons before rows ih =>
    obtain ⟨k, nk, hprev, hk, hcost⟩ := hc.1.prev y nd hnd (Nat.succ_pos _)
    obtain ⟨us, hus, hfollow, hscore⟩ := ih hc.2 hk
    obtain ⟨hlt, -⟩ := List.getElem?_eq_some_iff.mp hk
    have hlen := (mem_sequences.mp hus).1
    refine ⟨us ++ [k], ?_, ?_, ?_⟩
    · exact List.mem_flatMap.mpr ⟨k, List.mem_range.mpr (hlt.trans_eq hc.2.1.length),
        List.mem_map_of_mem hus⟩
    · rw [numbered_append, List.reverse_append, ← hfollow, follow, hnd, Option.bind_some, hprev]
      simp [numbered, hlen]
    · rw [score_snoc hlen, hscore, ← hcost, hc.1.cost y nd hnd]
      rfl

theorem lastBest_eq (row : List Node) :
    lastBest row = firstBest intMin (row.zipIdx.map fun n => (n.1.bestCost, n.2)) := by
  rw [lastBest, firstBest, List.foldl_map]

theorem lastBest_spec (h : t.Small B) (hf : t.Forward x before row) (hx : x < t.wordNum)
    (hwidth : 0 < t.ysize) : ∃ y, ∃ nd : Node, row[y]? = some nd ∧ (lastBest row).2 = some y ∧
      ∀ us ∈ sequences t.scores (x + 1), score t.scores 0 us ≤ nd.bestCost := by
  have hlow : ∀ (y : Nat) (nd : Node), row[y]? = some nd → intMin < nd.bestCost := by
    intro y nd hnd
    have hbest := h.isBest_abs (hf.best y nd hnd)
    have hle : 2 * ((x + 1 : Nat) : Int) * B ≤ 2 * t.wordNum * B :=
      mul_le_mul_of_nonneg_right (by omega) h.nonneg
    have hfits := h.fits
    have hB := h.nonneg
    push_cast at hle
    exact (abs_lt.mp (by linarith : |nd.bestCost| < 2147483648)).1
  have hlen : 0 < row.length := hf.length.symm ▸ hwidth
  obtain ⟨v, hv, hfirst, hmax⟩ := firstBest_spec intMin
    (row.zipIdx.map fun n => (n.1.bestCost, n.2))
    ⟨_, List.mem_map_of_mem (List.mem_zipIdx_iff_getElem?.mpr
      (List.getElem?_eq_getElem hlen) : (row[0], 0) ∈ row.zipIdx),
      hlow 0 row[0] (List.getElem?_eq_getElem hlen)⟩
  obtain ⟨⟨nd, y⟩, hy, rfl⟩ := List.mem_map.mp hv
  refine ⟨y, nd, List.mem_zipIdx_iff_getElem?.mp hy, by rw [lastBest_eq, hfirst], fun us hus => ?_⟩
  obtain ⟨k, hk, hus⟩ := List.mem_flatMap.mp hus
  obtain ⟨vs, hvs, rfl⟩ := List.mem_map.mp hus
  have hk : k < row.length := (List.mem_range.mp hk).trans_eq hf.length.symm
  have hnd := List.getElem?_eq_getElem hk
  exact ((hf.best k _ hnd).le vs hvs).trans (hmax _ (List.mem_map_of_mem
    (List.mem_zipIdx_iff_getElem?.mpr hnd : (row[k], k) ∈ row.zipIdx)))

-- ---------------------------------------------------------------------------
-- `viterbi`
-- ---------------------------------------------------------------------------

theorem viterbiNode_cost (t : CrfTag) (before : List Node) (nd : Node) (y : Nat) :
    (t.viterbiNode before nd y).cost = nd.cost := by
  rw [viterbiNode]
  split <;> rfl

theorem viterbiRows_cost (t : CrfTag) (before : List Node) (rows : List (List Node)) :
    (t.viterbiRows before rows).map (·.map Node.cost) = rows.map (·.map Node.cost) := by
  induction rows generalizing before with
  | nil => rfl
  | cons row rows ih =>
    have hrow : (row.mapIdx fun j nd => t.viterbiNode before nd j).map Node.cost =
        row.map Node.cost := by
      apply List.ext_getElem?
      intro j
      simp only [List.getElem?_map, List.getElem?_mapIdx, Option.map_map]
      exact congrArg (Option.map · row[j]?) (funext fun nd => t.viterbiNode_cost before nd j)
    rw [viterbiRows, List.map_cons, List.map_cons, ih, hrow]

theorem nodeAt_cost (t : CrfTag) (x y : Nat) : (t.nodeAt x y).cost =
    ((t.node.map (·.map Node.cost))[x]?.bind (·[y]?)).getD 0 := by
  rw [nodeAt, List.getElem?_map]
  cases t.node[x]? with
  | none => rfl
  | some row => cases h : row[y]? <;> simp [h]

@[simp] theorem viterbi_node (t : CrfTag) : t.viterbi.node = t.viterbiRows [] t.node := rfl

@[simp] theorem viterbi_wordNum (t : CrfTag) : t.viterbi.wordNum = t.wordNum := by
  have hlen := congrArg List.length (t.viterbiRows_cost [] t.node)
  simpa [wordNum] using hlen

@[simp] theorem viterbi_scores (t : CrfTag) : t.viterbi.scores = t.scores := by
  have hnode : (fun x y => (t.viterbi.nodeAt x y).cost) = fun x y => (t.nodeAt x y).cost := by
    funext x y
    rw [nodeAt_cost, nodeAt_cost, viterbi_node, viterbiRows_cost]
  change Scores.mk t.ysize (fun x y => (t.viterbi.nodeAt x y).cost) t.pathCost = _
  rw [hnode]
  rfl

theorem chained_get {rows : List (List Node)} (hc : t.Chained rows)
    (hrow : rows.reverse[x]? = some row) : ∃ before, t.Forward x before row := by
  induction rows with
  | nil => simp at hrow
  | cons last rows ih =>
    rw [List.reverse_cons] at hrow
    by_cases hx : x < rows.reverse.length
    · rw [List.getElem?_append_left hx] at hrow
      exact ih hc.2 hrow
    · obtain ⟨hlt, -⟩ := List.getElem?_eq_some_iff.mp hrow
      have hxlen : x = rows.length := by
        rw [List.length_append, List.length_singleton] at hlt
        rw [List.length_reverse] at hx hlt
        omega
      subst hxlen
      rw [List.getElem?_append_right (by simp)] at hrow
      simp only [List.length_reverse, Nat.sub_self, List.getElem?_cons_zero] at hrow
      cases hrow
      exact ⟨_, hc.1⟩

/-- The state after `viterbi`: every node knows the best path that ends there. -/
structure Solved (t : CrfTag) : Prop where
  width : ∀ row ∈ t.node, row.length = t.ysize
  best : ∀ x < t.wordNum, ∀ y < t.ysize, IsBest t.scores x y (t.nodeAt x y).bestCost

theorem viterbi_chained (h : t.Small B) (hwidth : 0 < t.ysize) :
    t.Chained t.viterbi.node.reverse := by
  have hc := chained_viterbiRows h hwidth (rfl : t.node.drop ([] : List (List Node)).length = t.node)
    trivial
  rwa [List.append_nil] at hc

theorem viterbi_solved (h : t.Small B) (hwidth : 0 < t.ysize) : t.viterbi.Solved := by
  have hc := viterbi_chained h hwidth
  have hget : ∀ x row, t.viterbi.node[x]? = some row → ∃ before, t.Forward x before row := by
    intro x row hrow
    exact chained_get hc (by rwa [List.reverse_reverse])
  constructor
  · intro row hrow
    obtain ⟨x, hx⟩ := List.mem_iff_getElem?.mp hrow
    obtain ⟨before, hf⟩ := hget x row hx
    exact hf.length
  · intro x hx y hy
    have hrow := List.getElem?_eq_getElem (l := t.viterbi.node) hx
    obtain ⟨before, hf⟩ := hget x _ hrow
    have hnd := List.getElem?_eq_getElem (hf.length.symm ▸ hy)
    rw [viterbi_scores, nodeAt_eq _ hrow hnd]
    exact hf.best y _ hnd

/-- `viterbi` finds a tagging with the highest score. -/
theorem viterbi_spec (h : t.Small B) (hwidth : 0 < t.ysize) (hword : 0 < t.wordNum)
    (hres : t.wordNum ≤ t.result.length) :
    ∃ ys ∈ sequences t.scores t.wordNum, t.viterbi.result = ys ++ t.result.drop t.wordNum ∧
      t.viterbi.cost = -score t.scores 0 ys ∧
      ∀ vs ∈ sequences t.scores t.wordNum, score t.scores 0 vs ≤ score t.scores 0 ys := by
  have hlen : (t.viterbiRows [] t.node).length = t.wordNum := t.viterbi_wordNum
  have hc := viterbi_chained h hwidth
  rw [viterbi_node] at hc
  obtain ⟨rows, row, hsplit⟩ : ∃ rows row, t.viterbiRows [] t.node = rows ++ [row] :=
    ⟨_, _, (List.dropLast_append_getLast (List.length_pos_iff.mp (hlen ▸ hword))).symm⟩
  rw [hsplit, List.reverse_append, List.reverse_singleton, List.singleton_append] at hc
  rw [hsplit, List.length_append, List.length_singleton] at hlen
  have hf := hc.1
  rw [List.length_reverse] at hf
  obtain ⟨y, nd, hnd, hlast, hmax⟩ := lastBest_spec h hf (by omega) hwidth
  obtain ⟨us, hus, hfollow, hscore⟩ := follow_spec hc hnd
  rw [List.length_reverse] at hus
  have huslen := (mem_sequences.mp hus).1
  have hyslen : (us ++ [y]).length = t.wordNum := by simp [huslen, hlen]
  have hresult : t.viterbi.result = us ++ [y] ++ t.result.drop t.wordNum := by
    rw [← hyslen, ← writeResult_reverse (hyslen.le.trans hres), ← hfollow, viterbi]
    simp [hsplit, hlast]
  have hword' : t.wordNum - 1 = rows.length := by omega
  have hnode : t.viterbi.nodeAt (t.wordNum - 1) (t.viterbi.result[t.wordNum - 1]?.getD 0) = nd := by
    have hy : t.viterbi.result[t.wordNum - 1]?.getD 0 = y := by
      rw [hresult, List.append_assoc, hword', ← huslen, List.getElem?_append_right le_rfl]
      simp
    rw [hy]
    exact nodeAt_eq _ (by rw [viterbi_node, hsplit, hword']; simp) hnd
  have hcost : t.viterbi.cost = int (-(t.viterbi.nodeAt (t.viterbi.wordNum - 1)
      (t.viterbi.result[t.viterbi.wordNum - 1]?.getD 0)).bestCost) := rfl
  rw [viterbi_wordNum, hnode] at hcost
  have hbest := h.isBest_abs (hf.best y nd hnd)
  have hint : int (-nd.bestCost) = -nd.bestCost := by
    apply h.fits_of_le (n := rows.length + 1) hlen.le
    have hB := h.nonneg
    rw [abs_neg]
    push_cast
    linarith
  refine ⟨us ++ [y], ?_, hresult, by rw [hcost, hint, hscore], fun vs hvs => ?_⟩
  · obtain ⟨hlt, -⟩ := List.getElem?_eq_some_iff.mp hnd
    rw [← hlen]
    exact List.mem_flatMap.mpr ⟨y, List.mem_range.mpr (hlt.trans_eq hf.length),
      List.mem_map_of_mem hus⟩
  · rw [hscore]
    exact hmax vs (hlen.symm ▸ hvs)

/-- With one tagging asked for, `parse` leaves one with the highest score in `result`. -/
theorem parse_best (h : t.Small B) (hwidth : 0 < t.ysize) (hword : 0 < t.wordNum)
    (hres : t.wordNum ≤ t.result.length) (hnbest : t.nbest ≤ 1) :
    ∃ t', t.parse = (0, t') ∧ ∃ ys ∈ sequences t.scores t.wordNum,
      t'.result = ys ++ t.result.drop t.wordNum ∧ t'.cost = -score t.scores 0 ys ∧
      ∀ vs ∈ sequences t.scores t.wordNum, score t.scores 0 vs ≤ score t.scores 0 ys := by
  refine ⟨t.viterbi, ?_, viterbi_spec h hwidth hword hres⟩
  rw [parse, if_neg hword.ne', if_neg fun hn => absurd hn.2 (Nat.not_lt.mpr hnbest)]

/-- Two labels that score better the other way round: the first word 3 to 1 and
the second 1 to 2, and 5 for a step to the same label. -/
def twoWords (nbest : Nat) : CrfTag where
  ysize := 2
  alpha := [5, 0, 0, 5]
  maxNbest := 10
  nbest := nbest
  node := [[⟨3, 0, none⟩, ⟨1, 0, none⟩], [⟨1, 0, none⟩, ⟨2, 0, none⟩]]
  result := [7, 7, 7]
  cost := 0
  nextTime := 0
  heap := .init 12

theorem twoWords_small (nbest : Nat) : (twoWords nbest).Small 5 := by
  have hcost : ∀ row ∈ (twoWords 0).node, ∀ n ∈ row, |n.cost| ≤ 5 := by decide
  refine small_of_forall (by decide) (by simp [twoWords]) hcost (by simp [twoWords]) ?_
  simp [CrfTag.wordNum, twoWords]

theorem parse_best_twoWords : ∃ t', (twoWords 1).parse = (0, t') ∧
    ∃ ys ∈ sequences (twoWords 1).scores 2, t'.result = ys ++ [7] ∧
      t'.cost = -score (twoWords 1).scores 0 ys ∧
      ∀ vs ∈ sequences (twoWords 1).scores 2,
        score (twoWords 1).scores 0 vs ≤ score (twoWords 1).scores 0 ys :=
  parse_best (twoWords_small 1) (by decide) (by decide) (by decide) (by decide)

example : (twoWords 1).parse.2.result = [0, 0, 7] := by decide

end CrfTag

end TextMining.LibCrf
