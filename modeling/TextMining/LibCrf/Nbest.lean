import TextMining.LibCrf.Viterbi
import TextMining.Lib.BestFirst

/-!
# The taggings in the order of their scores

The elements of the heap stand for all taggings that end with their labels.
The best score up to an element's node is known from `viterbi`, so `fx` is the
cost of the best of these taggings, and `next` returns the taggings from the
best one on, as long as `elem_list` has elements left.
-/

namespace TextMining.LibCrf

open Trellis BestFirst

def QueueElement.rest (qe : QueueElement) : List Nat := qe.next.map Prod.snd

namespace CrfTag

-- ---------------------------------------------------------------------------
-- Elements put into the heap
-- ---------------------------------------------------------------------------

variable {t t' : CrfTag} {heap heap' : Heap} {qe top : QueueElement} {B : Int}

theorem push_some (hwf : heap.WF) (hpush : push heap qe = some heap') :
    heap'.WF ∧ heap'.elemPtrList.Perm (heap.elemPtrList ++ [qe]) ∧
      heap'.capacity = heap.capacity ∧ heap'.elemSize = heap.elemSize + 1 := by
  by_cases hfull : heap.elemSize ≥ heap.capacity
  · simp [push, Heap.alloc, hfull] at hpush
  · have hroom : heap.size < heap.elemSize + 1 := Nat.lt_succ_of_le hwf.size_le
    obtain ⟨heap'', hins, hwf', hcap, helem, hperm⟩ :=
      @Heap.insert_spec { heap with elemSize := heap.elemSize + 1 } qe
        ⟨hwf.ordered, hroom.le, Nat.lt_of_not_le hfull⟩ hroom
    simp [push, Heap.alloc, hfull, hins] at hpush
    subst hpush
    exact ⟨hwf', hperm, hcap, helem⟩

theorem push_none (hwf : heap.WF) (hpush : push heap qe = none) : heap.elemSize = heap.capacity := by
  by_cases hfull : heap.elemSize ≥ heap.capacity
  · exact le_antisymm hwf.elemSize_le hfull
  · have hroom : heap.size < heap.elemSize + 1 := Nat.lt_succ_of_le hwf.size_le
    obtain ⟨heap', hins, -⟩ := @Heap.insert_spec { heap with elemSize := heap.elemSize + 1 } qe
      ⟨hwf.ordered, hroom.le, Nat.lt_of_not_le hfull⟩ hroom
    simp [push, Heap.alloc, hfull, hins] at hpush

theorem pushAll_true {element : Nat → QueueElement} {is : List Nat} (hwf : heap.WF)
    (hpush : pushAll element is heap = (true, heap')) :
    heap'.WF ∧ heap'.elemPtrList.Perm (heap.elemPtrList ++ is.map element) ∧
      heap'.capacity = heap.capacity ∧ heap'.elemSize = heap.elemSize + is.length := by
  induction is generalizing heap with
  | nil =>
    cases hpush
    exact ⟨hwf, by simp, rfl, rfl⟩
  | cons i is ih =>
    rw [pushAll] at hpush
    cases hone : push heap (element i) with
    | none =>
      rw [hone] at hpush
      cases hpush
    | some heap₁ =>
      rw [hone] at hpush
      obtain ⟨hwf₁, hperm₁, hcap₁, helem₁⟩ := push_some hwf hone
      obtain ⟨hwf', hperm, hcap, helem⟩ := ih hwf₁ hpush
      refine ⟨hwf', ?_, hcap.trans hcap₁, by rw [helem, helem₁, List.length_cons]; omega⟩
      rw [List.map_cons, ← List.singleton_append, ← List.append_assoc]
      exact hperm.trans (hperm₁.append_right _)

theorem pushAll_false {element : Nat → QueueElement} {is : List Nat} (hwf : heap.WF)
    (hpush : pushAll element is heap = (false, heap')) : heap'.elemSize = heap.capacity := by
  induction is generalizing heap with
  | nil => cases hpush
  | cons i is ih =>
    rw [pushAll] at hpush
    cases hone : push heap (element i) with
    | none =>
      rw [hone] at hpush
      cases hpush
      exact push_none hwf hone
    | some heap₁ =>
      rw [hone] at hpush
      obtain ⟨hwf₁, -, hcap₁, -⟩ := push_some hwf hone
      exact (ih hwf₁ hpush).trans hcap₁

-- ---------------------------------------------------------------------------
-- What an element stands for
-- ---------------------------------------------------------------------------

/-- An element for a node and the labels behind it, with the cost of these in
`gx` and the cost of the best tagging that ends so in `fx`. -/
structure Partial (t : CrfTag) (qe : QueueElement) : Prop where
  length : qe.x + 1 + qe.rest.length = t.wordNum
  y_lt : qe.y < t.ysize
  rest_lt : ∀ v ∈ qe.rest, v < t.ysize
  next_eq : qe.next = numbered (qe.x + 1) qe.rest
  gx_eq : qe.gx = -((t.nodeAt qe.x qe.y).cost + tail t.scores qe.x qe.y qe.rest)
  fx_eq : qe.fx = -((t.nodeAt qe.x qe.y).bestCost + tail t.scores qe.x qe.y qe.rest)

/-- The taggings that end with the element's labels. -/
def completions (t : CrfTag) (qe : QueueElement) : List (List Nat) :=
  (sequences t.scores qe.x).map (· ++ qe.y :: qe.rest)

def taggingCost (t : CrfTag) (ys : List Nat) : Int := -score t.scores 0 ys

theorem Partial.x_lt (hp : t.Partial qe) : qe.x < t.wordNum := by
  have := hp.length
  omega

/-- No tagging that ends so costs less than `fx`. -/
theorem Partial.fx_le (hp : t.Partial qe) (ht : t.Solved) {ys : List Nat}
    (hys : ys ∈ t.completions qe) : qe.fx ≤ t.taggingCost ys := by
  obtain ⟨us, hus, rfl⟩ := List.mem_map.mp hys
  have hbest := (ht.best qe.x hp.x_lt qe.y hp.y_lt).le us hus
  have hlen := (mem_sequences.mp hus).1
  have hscore : score t.scores 0 (us ++ qe.y :: qe.rest) =
      score t.scores 0 (us ++ [qe.y]) + tail t.scores qe.x qe.y qe.rest := by
    rw [score_append_cons, hlen, Nat.zero_add]
  rw [hp.fx_eq, taggingCost, hscore]
  linarith

theorem Partial.completions_first (hp : t.Partial qe) (hx : qe.x = 0) (ht : t.Solved) :
    t.completions qe = [qe.y :: qe.rest] ∧
      t.taggingCost (qe.y :: qe.rest) = qe.fx ∧
      t.taggingCost (qe.y :: qe.rest) = qe.gx := by
  have hscore : score t.scores 0 (qe.y :: qe.rest) =
      (t.nodeAt 0 qe.y).cost + tail t.scores 0 qe.y qe.rest := rfl
  have hbest : (t.nodeAt 0 qe.y).bestCost = (t.nodeAt 0 qe.y).cost := by
    have hzero := ht.best 0 (hx ▸ hp.x_lt) qe.y hp.y_lt
    exact hzero.unique isBest_zero
  refine ⟨by simp [completions, hx, sequences], ?_, ?_⟩
  · rw [hp.fx_eq, hx, taggingCost, hscore, hbest]
  · rw [hp.gx_eq, hx, taggingCost, hscore]

-- ---------------------------------------------------------------------------
-- The elements made
-- ---------------------------------------------------------------------------

theorem Solved.bestCost_abs (ht : t.Solved) (h : t.Small B) {x y : Nat} (hx : x < t.wordNum)
    (hy : y < t.ysize) : |(t.nodeAt x y).bestCost| ≤ (2 * x + 1) * B :=
  h.isBest_abs (ht.best x hx y hy)

theorem eos_partial (ht : t.Solved) (h : t.Small B) (hword : 0 < t.wordNum) {i : Nat}
    (hi : i < t.ysize) : t.Partial (t.eos i) := by
  have hB := h.nonneg
  have hcast : ((t.wordNum - 1 : Nat) : Int) = t.wordNum - 1 := by omega
  have hfx : int (-(t.nodeAt (t.wordNum - 1) i).bestCost) =
      -(t.nodeAt (t.wordNum - 1) i).bestCost := by
    have hbest := ht.bestCost_abs h (x := t.wordNum - 1) (by omega) hi
    apply h.fits_of_le (n := t.wordNum) le_rfl
    rw [abs_neg]
    rw [hcast] at hbest
    linarith
  have hgx : int (-(t.nodeAt (t.wordNum - 1) i).cost) = -(t.nodeAt (t.wordNum - 1) i).cost := by
    have hcost := h.cost_le (t.wordNum - 1) i
    apply h.fits_of_le (n := 1) hword
    rw [abs_neg]
    push_cast
    linarith
  refine ⟨?_, hi, by simp [eos, QueueElement.rest], rfl, ?_, ?_⟩
  · simp only [eos, QueueElement.rest, List.map_nil, List.length_nil]
    omega
  · simp [eos, hgx, QueueElement.rest, tail]
  · simp [eos, hfx, QueueElement.rest, tail]

theorem completions_eos (t : CrfTag) (hword : 0 < t.wordNum) :
    ((List.range t.ysize).map t.eos).flatMap t.completions = sequences t.scores t.wordNum := by
  obtain ⟨n, hn⟩ := Nat.exists_eq_succ_of_ne_zero hword.ne'
  rw [hn, sequences, List.flatMap_map]
  simp [completions, eos, QueueElement.rest, hn, scores]

theorem Partial.extend (hp : t.Partial top) (ht : t.Solved) (h : t.Small B) (hx : top.x ≠ 0)
    {i : Nat} (hi : i < t.ysize) : t.Partial (t.extend top i) := by
  obtain ⟨x, hx⟩ := Nat.exists_eq_succ_of_ne_zero hx
  have hB := h.nonneg
  have hxw := hp.x_lt
  have hrest : (t.extend top i).rest = top.y :: top.rest := rfl
  have htail : tail t.scores x i (top.y :: top.rest) =
      t.pathCost i top.y + (t.nodeAt (x + 1) top.y).cost +
        tail t.scores (x + 1) top.y top.rest := rfl
  have hg : top.gx = -((t.nodeAt (x + 1) top.y).cost +
      tail t.scores (x + 1) top.y top.rest) := by
    rw [hp.gx_eq, hx]
  have hlen := hp.length
  have hx' : (t.extend top i).x = x := by simp [CrfTag.extend, hx]
  have hy' : (t.extend top i).y = i := rfl
  -- all that is added up stays in range
  have hpath := h.path_le i top.y
  have hcost := h.cost_le x i
  have hbest := ht.bestCost_abs h (x := x) (y := i) (by omega) hi
  have hgabs : |top.gx| ≤ (2 * top.rest.length + 1) * B := by
    have hall := h.score_abs (x + 1) top.y top.rest
    rw [hg, abs_neg]
    exact hall
  have hpre : ∀ c : Int, |c| ≤ (2 * x + 1) * B →
      int (int (-c - t.pathCost i top.y) + top.gx) = -c - t.pathCost i top.y + top.gx := by
    intro c hc
    have hone : |(-c - t.pathCost i top.y)| ≤ (2 * x + 1) * B + B := by
      have := abs_sub (-c) (t.pathCost i top.y)
      rw [abs_neg] at this
      exact this.trans (add_le_add hc hpath)
    have htwo := (abs_add_le (-c - t.pathCost i top.y) top.gx).trans (add_le_add hone hgabs)
    have hfirst : int (-c - t.pathCost i top.y) = -c - t.pathCost i top.y := by
      apply h.fits_of_le (n := x + 1) (by omega)
      push_cast
      linarith
    rw [hfirst]
    apply h.fits_of_le (n := t.wordNum) le_rfl
    have hn : (t.wordNum : Int) = x + 2 + top.rest.length := by
      omega
    rw [hn]
    linarith
  refine ⟨?_, hi, ?_, ?_, ?_, ?_⟩
  · rw [hrest, List.length_cons]
    simp only [CrfTag.extend, hx]
    omega
  · intro v hv
    rw [hrest] at hv
    rcases List.mem_cons.mp hv with rfl | hv
    · exact hp.y_lt
    · exact hp.rest_lt v hv
  · rw [hrest, numbered]
    simp only [CrfTag.extend, hx, Nat.succ_sub_one]
    rw [hp.next_eq, hx]
  · rw [hx', hy', hrest, htail]
    simp only [CrfTag.extend, hx, Nat.succ_sub_one]
    rw [hpre _ (hcost.trans (by nlinarith)), hg]
    ring
  · rw [hx', hy', hrest, htail]
    simp only [CrfTag.extend, hx, Nat.succ_sub_one]
    rw [hpre _ hbest, hg]
    ring

/-- The extensions of an element stand for the same taggings. -/
theorem completions_extend (t : CrfTag) (hx : top.x ≠ 0) :
    ((List.range t.ysize).map (t.extend top)).flatMap t.completions = t.completions top := by
  obtain ⟨x, hx⟩ := Nat.exists_eq_succ_of_ne_zero hx
  rw [completions, hx, sequences, List.flatMap_map, List.map_flatMap]
  simp [completions, CrfTag.extend, QueueElement.rest, hx, scores, Function.comp_def]

-- ---------------------------------------------------------------------------
-- A call of `next`
-- ---------------------------------------------------------------------------

variable {t₀ : CrfTag} {returned : List (List Nat)} {fuel : Nat}

/-- The state of the tagger `t₀` between two calls. -/
structure Ready (t₀ t : CrfTag) (returned : List (List Nat)) : Prop where
  same : t = { t₀ with heap := t.heap, result := t.result, cost := t.cost, nextTime := t.nextTime }
  wf : t.heap.WF
  capacity : t.heap.capacity = t₀.heap.capacity
  partials : ∀ qe ∈ t.heap.elemPtrList, t₀.Partial qe
  enumerates : Enumerates t₀.completions t₀.taggingCost (sequences t₀.scores t₀.wordNum) returned
    t.heap.elemPtrList
  length_le : t₀.wordNum ≤ t.result.length

theorem Ready.extend_eq (hr : Ready t₀ t returned) : t.extend = t₀.extend := by
  rw [hr.same]
  rfl

inductive Call (t₀ t t' : CrfTag) (returned : List (List Nat)) : Prop
  | exhausted : t'.result = t.result → t'.cost = t.cost → Ready t₀ t' returned →
      t'.heap.elemPtrList = [] → Call t₀ t t' returned
  | found (ys : List Nat) : t'.result = ys ++ t.result.drop ys.length →
      t'.cost = t₀.taggingCost ys → Ready t₀ t' (returned ++ [ys]) → Call t₀ t t' returned

/-- How a call ends: without an element left to give out, or well. -/
def Ended (t₀ t t' : CrfTag) (returned : List (List Nat)) (ret : Int) : Prop :=
  ret = -1 ∧ t'.heap.elemSize = t₀.heap.capacity ∨ ret = 0 ∧ Call t₀ t t' returned

section
variable (hr : Ready t₀ t returned) (hwf : heap.WF) (hcap : heap.capacity = t.heap.capacity)
  (hperm : t.heap.elemPtrList.Perm (top :: heap.elemPtrList))
include hr hwf hcap hperm

/-- An element at the first position ends the call with its tagging. -/
theorem Ready.found (ht : t₀.Solved) (hx : top.x = 0)
    (hmin : ∀ qe ∈ heap.elemPtrList, top.fx ≤ qe.fx) (nextTime : Nat) :
    Call t₀ t
      { t with
        heap
        result := writeResult t.result ((top.x, top.y) :: top.next)
        cost := top.gx
        nextTime } returned := by
  have htop : t₀.Partial top := hr.partials top (hperm.mem_iff.mpr List.mem_cons_self)
  have hrest : ∀ qe ∈ heap.elemPtrList, t₀.Partial qe := fun qe hqe =>
    hr.partials qe (hperm.mem_iff.mpr (List.mem_cons_of_mem _ hqe))
  obtain ⟨hone, hfx, hgx⟩ := htop.completions_first hx ht
  have hlen : (top.y :: top.rest).length = t₀.wordNum := by
    have := htop.length
    rw [hx] at this
    simp only [List.length_cons]
    omega
  have hnodes : (top.x, top.y) :: top.next = numbered 0 (top.y :: top.rest) := by
    rw [numbered, ← hx, ← htop.next_eq]
  have hresult : writeResult t.result ((top.x, top.y) :: top.next) =
      top.y :: top.rest ++ t.result.drop (top.y :: top.rest).length := by
    rw [hnodes, writeResult_numbered (by rw [Nat.zero_add, hlen]; exact hr.length_le)]
    simp
  refine .found (top.y :: top.rest) hresult hgx.symm
    ⟨?_, hwf, hcap.trans hr.capacity, hrest, ?_, ?_⟩
  · have hsame := hr.same
    generalize t.heap = theap at hsame
    generalize t.nextTime = nextTime at hsame
    rw [hsame]
  · exact hr.enumerates.pop (fun qe hqe _ hys => (hrest qe hqe).fx_le ht hys) hperm hone hfx hmin
  · have := congrArg List.length hresult
    have hle := hr.length_le
    simp only [hresult, List.length_append, List.length_drop, hlen]
    omega

/-- An element at a later position gives way to its extensions. -/
theorem Ready.extended (ht : t₀.Solved) (h : t₀.Small B) (hx : top.x ≠ 0)
    (hpush : pushAll (t₀.extend top) (List.range t₀.ysize) heap = (true, heap')) :
    Ready t₀ { t with heap := heap' } returned := by
  have htop : t₀.Partial top := hr.partials top (hperm.mem_iff.mpr List.mem_cons_self)
  obtain ⟨hwf', hperm', hcap', -⟩ := pushAll_true hwf hpush
  refine ⟨?_, hwf', hcap'.trans (hcap.trans hr.capacity), ?_, ?_, hr.length_le⟩
  · have hsame := hr.same
    generalize t.heap = theap at hsame
    rw [hsame]
  · intro qe hqe
    rcases List.mem_append.mp (hperm'.mem_iff.mp hqe) with hqe | hqe
    · exact hr.partials qe (hperm.mem_iff.mpr (List.mem_cons_of_mem _ hqe))
    · obtain ⟨i, hi, rfl⟩ := List.mem_map.mp hqe
      exact htop.extend ht h hx (List.mem_range.mp hi)
  · exact hr.enumerates.expand hperm (.of_eq (t₀.completions_extend hx)) hperm'

end

theorem nextLoop_spec (ht : t₀.Solved) (h : t₀.Small B) (hr : Ready t₀ t returned)
    (hfuel : t.heap.size + (t.heap.capacity - t.heap.elemSize) < fuel) :
    ∃ ret t', nextLoop fuel t = some (ret, t') ∧ Ended t₀ t t' returned ret := by
  induction fuel generalizing t with
  | zero => exact absurd hfuel (Nat.not_lt_zero _)
  | succ fuel ih =>
    by_cases hnil : t.heap.elemPtrList = []
    · refine ⟨0, t, ?_, .inr ⟨rfl, .exhausted rfl rfl hr hnil⟩⟩
      rw [nextLoop, Heap.deleteMin_nil hnil]
    obtain ⟨top, heap, hdel, hwf, hcap, helem, hperm, hmin⟩ := Heap.deleteMin_spec hr.wf hnil
    rw [nextLoop, hdel]
    by_cases hx : top.x = 0
    · exact ⟨0, _, by simp only [if_pos hx]; rfl, .inr ⟨rfl, hr.found hwf hcap hperm ht hx hmin _⟩⟩
    · simp only [if_neg hx]
      cases hpush : pushAll (t.extend top) (List.range t.ysize) heap with
      | mk ok heap' =>
        cases ok with
        | false =>
          exact ⟨-1, _, rfl, .inl ⟨rfl, (pushAll_false hwf hpush).trans (hcap.trans hr.capacity)⟩⟩
        | true =>
          have hysize : t.ysize = t₀.ysize := by rw [hr.same]
          rw [hr.extend_eq, hysize] at hpush
          obtain ⟨hwf', hperm', hcap', helem'⟩ := pushAll_true hwf hpush
          -- the element taken out pays for the round
          have hfuel' : heap'.size + (heap'.capacity - heap'.elemSize) < fuel := by
            have hsize := hperm.length_eq
            have hsize' := hperm'.length_eq
            have hle := hwf'.elemSize_le
            simp only [Heap.size, List.length_cons, List.length_append, List.length_map,
              List.length_range] at hsize hsize' hfuel helem' ⊢
            omega
          obtain ⟨ret, t', hrun, hret⟩ := ih (hr.extended hwf hcap hperm ht h hx hpush) hfuel'
          refine ⟨ret, t', hrun, Or.imp_right (And.imp_right fun hcall => ?_) hret⟩
          cases hcall with
          | exhausted hresult hcost hready hempty => exact .exhausted hresult hcost hready hempty
          | found ys hresult hcost hready => exact .found ys hresult hcost hready

theorem next_spec (ht : t₀.Solved) (h : t₀.Small B) (hr : Ready t₀ t returned)
    (hmax : 1 < t₀.maxNbest) :
    ∃ ret t', t.next = some (ret, t') ∧ Ended t₀ t t' returned ret := by
  have hne : t.maxNbest ≠ 1 := by
    rw [hr.same]
    exact hmax.ne'
  rw [next, if_neg hne]
  apply nextLoop_spec ht h hr
  have hsize := hr.wf.size_le
  have helem := hr.wf.elemSize_le
  omega

-- ---------------------------------------------------------------------------
-- Runs of calls
-- ---------------------------------------------------------------------------

theorem Small.viterbi (h : t.Small B) (hwidth : 0 < t.ysize) : t.viterbi.Small B := by
  have hcost : ∀ x y, (t.viterbi.nodeAt x y).cost = (t.nodeAt x y).cost := fun x y =>
    congrFun (congrFun (congrArg Scores.node t.viterbi_scores) x) y
  refine ⟨(viterbi_solved h hwidth).width, fun x y => ?_, h.path_le, ?_⟩
  · rw [hcost]
    exact h.cost_le x y
  · rw [viterbi_wordNum]
    exact h.fits

/-- After `initNbest` the heap stands for all taggings. -/
theorem initNbest_ready (ht : t.Solved) (h : t.Small B) (hword : 0 < t.wordNum)
    (hheap : t.heap.elemPtrList = []) (helem : t.heap.elemSize = 0)
    (hlen : t.wordNum ≤ t.result.length) (hinit : t.initNbest = (0, t')) : Ready t t' [] := by
  have hwf : t.heap.WF := by
    refine ⟨?_, ?_, by omega⟩
    · rw [hheap]
      exact MinHeap.orderedFrom_of_leaves (by simp)
    · simp [Heap.size, hheap]
  rw [initNbest] at hinit
  cases hpush : pushAll t.eos (List.range t.ysize) t.heap with
  | mk ok heap =>
    rw [hpush] at hinit
    cases ok with
    | false => simp at hinit
    | true =>
      obtain rfl : { t with heap } = t' := (Prod.mk.inj hinit).2
      obtain ⟨hwf', hperm, hcap, -⟩ := pushAll_true hwf hpush
      rw [hheap, List.nil_append] at hperm
      refine ⟨rfl, hwf', hcap, fun qe hqe => ?_, .start ?_, hlen⟩
      · obtain ⟨i, hi, rfl⟩ := List.mem_map.mp (hperm.mem_iff.mp hqe)
        exact eos_partial ht h hword (List.mem_range.mp hi)
      · exact (hperm.flatMap_right _).trans (.of_eq (t.completions_eos hword))

inductive Ran (t : CrfTag) : List (List Nat × Int) → CrfTag → Prop
  | nil : Ran t [] t
  | call {t' t'' : CrfTag} {outs : List (List Nat × Int)} : Ran t outs t' →
      t'.next = some (0, t'') → Ran t (outs ++ [(t''.result.take t''.wordNum, t''.cost)]) t''

def entry (t : CrfTag) (ys : List Nat) : List Nat × Int := (ys, t.taggingCost ys)

/-- The state after so many calls, of which the last `m` found nothing. -/
structure After (t₀ t : CrfTag) (outs : List (List Nat × Int)) (returned : List (List Nat))
    (m : Nat) : Prop where
  ready : Ready t₀ t returned
  outs_eq : outs = (returned ++ List.replicate m (returned.getLast?.getD [])).map t₀.entry
  last : ∀ ys, returned.getLast? = some ys → (t.result.take t₀.wordNum, t.cost) = t₀.entry ys
  empty : m ≠ 0 → t.heap.elemPtrList = []

theorem length_sequences (S : Scores Int) (n : Nat) : (sequences S n).length = S.width ^ n := by
  induction n with
  | zero => rfl
  | succ n ih =>
    have hconst : ∀ y ∈ List.range S.width, ((sequences S n).map (· ++ [y])).length =
        S.width ^ n := fun y _ => by rw [List.length_map, ih]
    rw [sequences, List.length_flatMap, List.map_congr_left hconst, List.map_const',
      List.sum_replicate_nat, List.length_range, Nat.pow_succ, Nat.mul_comm]

theorem Ready.length_returned (hr : Ready t₀ t returned) :
    returned.length ≤ (sequences t₀.scores t₀.wordNum).length := by
  have hlen := hr.enumerates.perm.length_eq
  rw [List.length_append] at hlen
  omega

theorem Ready.perm_of_empty (hr : Ready t₀ t returned) (hnil : t.heap.elemPtrList = []) :
    returned.Perm (sequences t₀.scores t₀.wordNum) := by
  have henum := hr.enumerates
  rw [hnil] at henum
  exact henum.perm_of_nil

theorem After.call {outs : List (List Nat × Int)} {m : Nat} (ha : After t₀ t outs returned m)
    (hwidth : 0 < t₀.ysize) (hcall : Call t₀ t t' returned) : ∃ returned' m',
      After t₀ t' (outs ++ [(t'.result.take t₀.wordNum, t'.cost)]) returned' m' := by
  cases hcall with
  | exhausted hresult hcost hready hnil =>
    have hperm := hready.perm_of_empty hnil
    have hpos : 0 < returned.length := by
      rw [hperm.length_eq, length_sequences]
      exact Nat.pow_pos hwidth
    have hlast : returned.getLast? = some (returned.getLast (List.length_pos_iff.mp hpos)) :=
      List.getLast?_eq_some_getLast _
    have hout := ha.last _ hlast
    refine ⟨returned, m + 1, hready, ?_, fun ys hys => ?_, fun _ => hnil⟩
    · rw [hresult, hcost, hout, ha.outs_eq, hlast, Option.getD_some, List.replicate_succ']
      simp
    · rw [hresult, hcost]
      exact ha.last ys hys
  | found ys hresult hcost hready =>
    -- nothing is found once all taggings have been returned
    have hm : m = 0 := by
      by_contra hm
      have hlen := (ha.ready.perm_of_empty (ha.empty hm)).length_eq
      have hle := hready.length_returned
      rw [List.length_append, List.length_singleton, hlen] at hle
      omega
    subst hm
    have hys : ys ∈ sequences t₀.scores t₀.wordNum :=
      hready.enumerates.perm.mem_iff.mp (by simp)
    have hyslen : ys.length = t₀.wordNum := (mem_sequences.mp hys).1
    have hentry : (t'.result.take t₀.wordNum, t'.cost) = t₀.entry ys := by
      rw [hresult, hcost, ← hyslen]
      simp [entry]
    refine ⟨returned ++ [ys], 0, hready, ?_, fun zs hzs => ?_, fun h => absurd rfl h⟩
    · rw [hentry, ha.outs_eq]
      simp
    · have hzs : ys = zs := by simpa using hzs
      rw [← hzs, hentry]

theorem Ran.after {outs : List (List Nat × Int)} (hran : Ran t outs t') (hstart : Ready t₀ t [])
    (ht : t₀.Solved) (h : t₀.Small B) (hwidth : 0 < t₀.ysize) (hmax : 1 < t₀.maxNbest) :
    ∃ returned m, After t₀ t' outs returned m := by
  induction hran with
  | nil => exact ⟨[], 0, hstart, by simp, by simp, fun h => absurd rfl h⟩
  | call hran hnext ih =>
    obtain ⟨returned, m, ha⟩ := ih
    obtain ⟨ret, t'', hrun, hret⟩ := next_spec ht h ha.ready hmax
    cases hnext.symm.trans hrun
    have hcall := (hret.resolve_left fun hfail => absurd hfail.1 (by decide)).2
    obtain ⟨returned', m', ha'⟩ := ha.call hwidth hcall
    have hword : ∀ returned'' (t : CrfTag), Ready t₀ t returned'' → t.wordNum = t₀.wordNum := by
      intro returned'' t hr
      rw [hr.same]
      rfl
    rw [hword _ _ ha'.ready]
    exact ⟨returned', m', ha'⟩

/-- What the calls of `next` after `parse` return: the taggings in the order of their
scores, and the last one again once there are no more. -/
structure InOrder (t : CrfTag) (outs : List (List Nat × Int)) (returned : List (List Nat))
    (m : Nat) : Prop where
  outs_eq : outs = (returned ++ List.replicate m (returned.getLast?.getD [])).map
    (fun ys => (ys, -score t.scores 0 ys))
  nodup : returned.Nodup
  tagging : ∀ ys ∈ returned, ys ∈ sequences t.scores t.wordNum
  sorted : returned.Pairwise fun ys zs => score t.scores 0 zs ≤ score t.scores 0 ys
  le : ∀ zs ∈ sequences t.scores t.wordNum, zs ∉ returned →
    ∀ ys ∈ returned, score t.scores 0 zs ≤ score t.scores 0 ys
  all : m ≠ 0 → returned.length = t.ysize ^ t.wordNum

structure Fresh (t : CrfTag) (B : Int) : Prop where
  small : t.Small B
  width : 0 < t.ysize
  word : 0 < t.wordNum
  length_le : t.wordNum ≤ t.result.length
  heap : t.heap.elemPtrList = []
  elemSize : t.heap.elemSize = 0

theorem Fresh.ran {outs : List (List Nat × Int)} {t₁ t₂ : CrfTag} (h : t.Fresh B)
    (hmax : 1 < t.maxNbest) (hnbest : 1 < t.nbest) (hparse : t.parse = (0, t₁))
    (hran : Ran t₁ outs t₂) : (∃ returned m, t.InOrder outs returned m) ∧
      (∃ ret t₃, t₂.next = some (ret, t₃) ∧
        (ret = -1 ∧ t₃.heap.elemSize = t.heap.capacity ∨ ret = 0)) ∧
      t₂.wordNum = t.wordNum ∧ t.wordNum ≤ t₂.result.length := by
  have ht := viterbi_solved h.small h.width
  have hsmall := h.small.viterbi h.width
  obtain ⟨ys, hys, hresult, -, -⟩ := viterbi_spec h.small h.width h.word h.length_le
  have hlen' : t.viterbi.wordNum ≤ t.viterbi.result.length := by
    rw [viterbi_wordNum, hresult, List.length_append, (mem_sequences.mp hys).1]
    exact Nat.le_add_right _ _
  have hinit : t.viterbi.initNbest = (0, t₁) := by
    rw [← hparse, parse, if_neg h.word.ne', if_pos ⟨hmax, hnbest⟩]
  have hready := initNbest_ready ht hsmall (by rw [viterbi_wordNum]; exact h.word) h.heap h.elemSize
    hlen' hinit
  obtain ⟨returned, m, ha⟩ := hran.after hready ht hsmall h.width hmax
  have henum := ha.ready.enumerates
  have hscore : ∀ ys, t.viterbi.taggingCost ys = -score t.scores 0 ys := fun ys => by
    rw [taggingCost, viterbi_scores]
  have hall : sequences t.viterbi.scores t.viterbi.wordNum = sequences t.scores t.wordNum := by
    rw [viterbi_scores, viterbi_wordNum]
  rw [hall] at henum
  refine ⟨⟨returned, m, ?_, henum.nodup nodup_sequences, fun ys hys => ?_, ?_,
    fun zs hzs hout ys hys => ?_, fun hm => ?_⟩, ?_, ?_, ?_⟩
  · rw [ha.outs_eq]
    exact List.map_congr_left fun ys _ => congrArg (Prod.mk ys) (hscore ys)
  · exact henum.perm.mem_iff.mp (List.mem_append_left _ hys)
  · refine henum.sorted.imp fun hle => ?_
    rw [hscore, hscore] at hle
    exact neg_le_neg_iff.mp hle
  · have hle := henum.le_of_not_mem hys hzs hout
    rw [hscore, hscore] at hle
    exact neg_le_neg_iff.mp hle
  · have hperm := ha.ready.perm_of_empty (ha.empty hm)
    rw [hperm.length_eq, hall, length_sequences]
    rfl
  · obtain ⟨ret, t₃, hrun, hret⟩ := next_spec ht hsmall ha.ready hmax
    exact ⟨ret, t₃, hrun, Or.imp_right And.left hret⟩
  · have hword : t₂.wordNum = t.viterbi.wordNum := by
      rw [ha.ready.same]
      rfl
    rw [hword, viterbi_wordNum]
  · rw [← viterbi_wordNum]
    exact ha.ready.length_le

/-- So many calls end, unless one finds all elements of the heap given out; as long
as they succeed, the taggings come from the best one on, each once. -/
theorem next_in_order {t₁ : CrfTag} (h : t.Fresh B) (hmax : 1 < t.maxNbest) (hnbest : 1 < t.nbest)
    (hparse : t.parse = (0, t₁)) (k : Nat) : ∃ outs t₂, Ran t₁ outs t₂ ∧
      (outs.length = k ∨ outs.length < k ∧ ∃ t₃, t₂.next = some (-1, t₃) ∧
        t₃.heap.elemSize = t.heap.capacity) ∧
      ∃ returned m, t.InOrder outs returned m := by
  induction k with
  | zero => exact ⟨[], t₁, .nil, .inl rfl, (h.ran hmax hnbest hparse .nil).1⟩
  | succ k ih =>
    obtain ⟨outs, t₂, hran, hlen, horder⟩ := ih
    rcases hlen with hlen | ⟨hlt, hfail⟩
    · obtain ⟨ret, t₃, hnext, ⟨rfl, hused⟩ | rfl⟩ := (h.ran hmax hnbest hparse hran).2.1
      · exact ⟨outs, t₂, hran, .inr ⟨by omega, t₃, hnext, hused⟩, horder⟩
      · refine ⟨_, t₃, hran.call hnext, .inl (by simp [hlen]), ?_⟩
        exact (h.ran hmax hnbest hparse (hran.call hnext)).1
    · exact ⟨outs, t₂, hran, .inr ⟨hlt.trans (Nat.lt_succ_self k), hfail⟩, horder⟩

theorem twoWords_fresh (nbest : Nat) : (twoWords nbest).Fresh 5 :=
  ⟨twoWords_small nbest, Nat.two_pos, Nat.two_pos, Nat.le_succ 2, rfl, rfl⟩

theorem next_in_order_twoWords : ∃ outs t₂, Ran (twoWords 4).parse.2 outs t₂ ∧
    (outs.length = 5 ∨ outs.length < 5 ∧ ∃ t₃, t₂.next = some (-1, t₃) ∧
      t₃.heap.elemSize = (twoWords 4).heap.capacity) ∧
    ∃ returned m, (twoWords 4).InOrder outs returned m :=
  next_in_order (twoWords_fresh 4) (by decide) (by decide) rfl 5

end CrfTag

end TextMining.LibCrf
