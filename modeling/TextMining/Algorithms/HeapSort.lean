import TextMining.Lib.Cells
import TextMining.Lib.MinHeap
import Mathlib.Order.Nat
import Mathlib.Data.Int.Order.Basic

/-!
# Heap sort

`MinHeapfy`, `BuildHeap` and `HeapSort` of `heap_sort.cc`. The root of a min
heap goes behind the heap, which gets shorter, so the array ends in descending
order. The array has no cells but its own.
-/

namespace TextMining.HeapSort

open Cells MinHeap

def left (i : Nat) : Option Nat := toInt (2 * i + 1)

def right (i : Nat) : Option Nat := toInt (2 * i + 2)

def lesser (heapArray : List Int) (heapSize child min : Nat) : Option Nat :=
  if child < heapSize then do
    let a ← heapArray[child]?
    let b ← heapArray[min]?
    return if a < b then child else min
  else some min

def minHeapfyLoop : Nat → List Int → Nat → Nat → Option (List Int)
  | 0, _, _, _ => none
  | depth + 1, heapArray, heapSize, i => do
    let l ← left i
    let r ← right i
    let min ← lesser heapArray heapSize l i
    let min ← lesser heapArray heapSize r min
    if min ≠ i then
      let heapArray ← swap heapArray min i
      minHeapfyLoop depth heapArray heapSize min
    else return heapArray

/-- A call goes on to a child, so one more than there are elements suffice. -/
def minHeapfy (heapArray : List Int) (heapSize i : Nat) : Option (List Int) :=
  minHeapfyLoop (heapSize + 1) heapArray heapSize i

def buildHeap (heapArray : List Int) (heapSize : Nat) : Option (List Int) :=
  (List.range (heapSize / 2 + 1)).reverse.foldlM (fun heapArray i =>
    minHeapfy heapArray heapSize i) heapArray

def sortStep (heapSize : Nat) (heapArray : List Int) (i : Nat) : Option (List Int) := do
  let heapArray ← swap heapArray 0 (heapSize - i - 1)
  minHeapfy heapArray (heapSize - i - 1) 0

def heapSort (heapArray : List Int) (heapSize : Nat) : Option (List Int) := do
  let heapArray ← buildHeap heapArray heapSize
  (List.range (heapSize - 1)).foldlM (sortStep heapSize) heapArray

example : heapSort [4, 7, 1, 8, 4, 8, 0] 7 = some [8, 8, 7, 4, 4, 1, 0] := by decide

-- ---------------------------------------------------------------------------
-- `MinHeapfy`
-- ---------------------------------------------------------------------------

variable {heap tail : List Int} {i j depth : Nat}

abbrev HeapFrom (heap : List Int) (j : Nat) : Prop := OrderedFrom id heap j

def value (heap : List Int) (i : Nat) : Int := heap[i]?.getD 0

theorem getElem?_value (h : i < heap.length) : heap[i]? = some (value heap i) := by
  simp [value, h]

theorem lesser_eq (tail : List Int) {child min : Nat} (hmin : min < heap.length) :
    lesser (heap ++ tail) heap.length child min =
      some (if child < heap.length ∧ value heap child < value heap min then child else min) := by
  rw [lesser]
  by_cases hc : child < heap.length
  · rw [if_pos hc, List.getElem?_append_left hc, List.getElem?_append_left hmin,
      getElem?_value hc, getElem?_value hmin]
    simp [hc]
  · rw [if_neg hc, if_neg fun h => hc h.1]

theorem lesser_lesser (tail : List Int) (hi : i < heap.length) :
    (lesser (heap ++ tail) heap.length (2 * i + 1) i).bind
      (lesser (heap ++ tail) heap.length (2 * i + 2)) = some (least (value heap) heap.length i) := by
  rw [lesser_eq tail hi, Option.bind_some, lesser_eq tail]
  · rfl
  · split
    · rename_i h
      exact h.1
    · exact hi

theorem inOrder_of_le {p c : Nat} (h : c < heap.length → value heap p ≤ value heap c) :
    InOrder id heap p c := by
  intro a b ha hb
  obtain ⟨hc, -⟩ := List.getElem?_eq_some_iff.mp hb
  have hle := h hc
  rwa [value, value, ha, hb] at hle

theorem minHeapfyLoop_spec (tail : List Int) (hsize : heap.length < 2 ^ 30) (hi : i < heap.length)
    (hj : j ≤ i) (hdepth : heap.length ≤ depth + i) (h : Sinking id heap j i) :
    ∃ heap', minHeapfyLoop depth (heap ++ tail) heap.length i = some (heap' ++ tail) ∧
      HeapFrom heap' j ∧ heap'.Perm heap := by
  induction depth generalizing heap i with
  | zero => omega
  | succ depth ih =>
    have hl : left i = some (2 * i + 1) := toInt_of_lt (by omega)
    have hr : right i = some (2 * i + 2) := toInt_of_lt (by omega)
    have hmin := lesser_lesser tail hi
    rw [minHeapfyLoop, hl, hr]
    simp only [Option.bind_eq_bind, Option.bind_some]
    rw [← Option.bind_assoc, hmin, Option.bind_some]
    rcases least_spec (value heap) heap.length i with ⟨heq, hle⟩ | ⟨hc, hclt, hlt, hle⟩
    · refine ⟨heap, by simp [heq], h.finish fun c hc => inOrder_of_le (hle c hc), .refl _⟩
    · generalize least (value heap) heap.length i = c at hc hclt hlt hle
      have ha := getElem?_value hi
      have hb := getElem?_value hclt
      have hswap : swap (heap ++ tail) c i =
          some ((heap.set c (value heap i)).set i (value heap c) ++ tail) := by
        have hframe := swap_frame [] tail hclt hi
        simpa [swap_eq hb ha] using hframe
      have hsink := h.swap hj hc ha hb hlt fun c' hc' => inOrder_of_le (hle c' hc')
      have hperm := swap_perm ha hb
      obtain ⟨heap', hrun, hord, hp⟩ := @ih ((heap.set c (value heap i)).set i (value heap c)) c
        (by simpa using hsize) (by simpa using hclt) (hj.trans hc.lt.le)
        (by have := hc.lt; simp; omega) hsink
      refine ⟨heap', ?_, hord, hp.trans hperm⟩
      rw [if_pos hc.lt.ne', hswap, Option.bind_some]
      simpa using hrun

theorem minHeapfy_spec (tail : List Int) (hsize : heap.length < 2 ^ 30) (hi : i < heap.length)
    (hj : j ≤ i) (h : Sinking id heap j i) :
    ∃ heap', minHeapfy (heap ++ tail) heap.length i = some (heap' ++ tail) ∧
      HeapFrom heap' j ∧ heap'.Perm heap :=
  minHeapfyLoop_spec tail hsize hi hj (by omega) h

-- ---------------------------------------------------------------------------
-- `BuildHeap`
-- ---------------------------------------------------------------------------

theorem heapifyFrom_spec {m : Nat} (hsize : heap.length < 2 ^ 30) (hm : m ≤ heap.length)
    (h : HeapFrom heap m) :
    ∃ heap', (List.range m).reverse.foldlM (fun heapArray i =>
        minHeapfy heapArray heap.length i) heap = some heap' ∧
      HeapFrom heap' 0 ∧ heap'.Perm heap := by
  induction m generalizing heap with
  | zero => exact ⟨heap, rfl, h, .refl _⟩
  | succ m ih =>
    obtain ⟨heap₁, hrun₁, hord₁, hp₁⟩ := minHeapfy_spec [] hsize hm (le_refl m) h.sinking
    simp only [List.append_nil] at hrun₁
    have hlen := hp₁.length_eq
    obtain ⟨heap₂, hrun₂, hord₂, hp₂⟩ := ih (by rwa [hlen]) (by omega) hord₁
    refine ⟨heap₂, ?_, hord₂, hp₂.trans hp₁⟩
    rw [List.range_succ, List.reverse_append, List.reverse_singleton, List.singleton_append,
      List.foldlM_cons, hrun₁, ← hlen]
    exact hrun₂

/-- The loop starts at a position that may have no children, and that is past
the end where there are no elements at all. -/
theorem buildHeap_spec (hsize : heap.length < 2 ^ 30) :
    ∃ heap', buildHeap heap heap.length = some heap' ∧ HeapFrom heap' 0 ∧ heap'.Perm heap := by
  cases heap with
  | nil =>
    have hempty : HeapFrom [] 0 := orderedFrom_of_leaves (by simp)
    exact ⟨[], by decide, hempty, .refl _⟩
  | cons x xs =>
    have hpos : 0 < (x :: xs).length := Nat.succ_pos _
    have hlast : HeapFrom (x :: xs) ((x :: xs).length / 2 + 1) :=
      orderedFrom_of_leaves (by omega)
    exact heapifyFrom_spec hsize (by omega) hlast

-- ---------------------------------------------------------------------------
-- `HeapSort`
-- ---------------------------------------------------------------------------

/-- A heap and, behind it, the elements that were taken out of it. -/
structure Sorting (original heap tail : List Int) : Prop where
  ordered : HeapFrom heap 0
  perm : (heap ++ tail).Perm original
  sorted : tail.Pairwise (· ≥ ·)
  above : ∀ x ∈ heap, ∀ y ∈ tail, y ≤ x

theorem Sorting.step {original : List Int} (h : Sorting original heap tail)
    (hsize : heap.length < 2 ^ 30) (hi : heap.length + i = original.length)
    (htwo : 2 ≤ heap.length) :
    ∃ heap' root, sortStep original.length (heap ++ tail) i = some (heap' ++ root :: tail) ∧
      heap'.length + (i + 1) = original.length ∧ Sorting original heap' (root :: tail) := by
  obtain ⟨root, rest, rfl⟩ : ∃ root rest, heap = root :: rest :=
    List.exists_cons_of_length_pos (by omega)
  obtain ⟨mid, last, rfl⟩ : ∃ mid last, rest = mid ++ [last] := by
    refine ⟨rest.dropLast, rest.getLast ?_, (List.dropLast_append_getLast _).symm⟩
    rintro rfl
    simp at htwo
  have hlen : original.length - i - 1 = (last :: mid).length := by simp at hi ⊢; omega
  have hswap : swap (root :: (mid ++ [last]) ++ tail) 0 (last :: mid).length =
      some (last :: mid ++ root :: tail) := by
    have hb : (root :: (mid ++ [last]) ++ tail)[(last :: mid).length]? = some last := by simp
    have ha : (root :: (mid ++ [last]) ++ tail)[0]? = some root := rfl
    rw [swap_eq ha hb]
    simp
  have hprev : HeapFrom (root :: mid) 0 := by
    have hord := h.ordered
    rw [← List.cons_append] at hord
    exact hord.of_append
  obtain ⟨heap', hrun, hord, hp⟩ := minHeapfy_spec (root :: tail)
    (by simp at hsize ⊢; omega) (Nat.succ_pos _) (Nat.zero_le 0) (hprev.set last)
  have hmem : ∀ x ∈ heap', x ∈ root :: (mid ++ [last]) := by
    intro x hx
    have hx' : x ∈ last :: mid := hp.mem_iff.mp hx
    simp only [List.mem_cons, List.mem_append, List.not_mem_nil, or_false] at hx' ⊢
    tauto
  refine ⟨heap', root, ?_, ?_, ⟨hord, ?_, ?_, ?_⟩⟩
  · rw [sortStep, hlen, hswap]
    exact hrun
  · have hl : heap'.length = (last :: mid).length := hp.length_eq
    simp at hi hl
    omega
  · refine List.Perm.trans ?_ h.perm
    have hback : (last :: mid ++ root :: tail).Perm (root :: (mid ++ [last]) ++ tail) := by
      refine List.perm_middle.trans (List.Perm.cons root ?_)
      exact (List.perm_append_singleton last mid).symm.append_right tail
    exact (hp.append_right (root :: tail)).trans hback
  · exact List.pairwise_cons.mpr ⟨h.above root List.mem_cons_self, h.sorted⟩
  · intro x hx y hy
    rcases List.mem_cons.mp hy with rfl | hy
    · exact h.ordered.root_le rfl x (hmem x hx)
    · exact h.above x (hmem x hx) y hy

theorem sortLoop_spec {original : List Int} {n : Nat} (hsize : heap.length < 2 ^ 30)
    (h : Sorting original heap []) (hn : n + 1 ≤ original.length) :
    ∃ heap' tail, (List.range n).foldlM (sortStep original.length) heap = some (heap' ++ tail) ∧
      heap'.length + n = original.length ∧ Sorting original heap' tail := by
  have hlen : heap.length = original.length := by simpa using h.perm.length_eq
  induction n with
  | zero => exact ⟨heap, [], by simp, by simpa using hlen, h⟩
  | succ n ih =>
    obtain ⟨heap₁, tail₁, hrun₁, hlen₁, h₁⟩ := ih (by omega)
    obtain ⟨heap₂, root, hrun₂, hlen₂, h₂⟩ := h₁.step (by omega) hlen₁ (by omega)
    refine ⟨heap₂, root :: tail₁, ?_, hlen₂, h₂⟩
    rw [List.range_succ, List.foldlM_append, hrun₁]
    simpa using hrun₂

/-- `HeapSort` has a result, so no call leaves the array; the result is in
descending order. -/
theorem heapSort_sorts (heapArray : List Int) (hsize : heapArray.length < 2 ^ 30) :
    ∃ sorted, heapSort heapArray heapArray.length = some sorted ∧ sorted.Perm heapArray ∧
      sorted.Pairwise (· ≥ ·) := by
  obtain ⟨heap, hbuild, hord, hp⟩ := buildHeap_spec hsize
  have hstart : Sorting heapArray heap [] := ⟨hord, by simpa using hp, .nil, by simp⟩
  rw [heapSort, hbuild]
  by_cases hempty : heapArray = []
  · subst hempty
    have hnil : heap = [] := hp.eq_nil
    exact ⟨[], by simp [hnil], .refl _, .nil⟩
  · have hpos := List.length_pos_of_ne_nil hempty
    have hn : heapArray.length - 1 + 1 ≤ heapArray.length := by omega
    obtain ⟨heap', tail, hrun, hlen, h⟩ := sortLoop_spec (hp.length_eq.trans_lt hsize) hstart hn
    refine ⟨heap' ++ tail, hrun, h.perm, ?_⟩
    obtain ⟨x, rfl⟩ : ∃ x, heap' = [x] := List.length_eq_one_iff.mp (by omega)
    exact List.pairwise_cons.mpr ⟨h.above x List.mem_cons_self, h.sorted⟩

theorem heapSort_sorts_seven :
    ∃ sorted, heapSort [4, 7, 1, 8, 4, 8, 0] 7 = some sorted ∧
      sorted.Perm [4, 7, 1, 8, 4, 8, 0] ∧ sorted.Pairwise (· ≥ ·) :=
  heapSort_sorts [4, 7, 1, 8, 4, 8, 0] (by decide)

end TextMining.HeapSort
