import TextMining.Lib.Cells
import TextMining.WordNet.TopK

/-!
# The heap of a stream

`heapify_r` and `build_min_heap` with every access checked against the buffer
and every index against the range of an `int`. The checked functions have the
results of the others, so the buffer of a selection is never left; on a stream
of items it holds the largest after every step.
-/

namespace TextMining.WordNet.Heap

open Cells MinHeap

-- ---------------------------------------------------------------------------
-- The functions
-- ---------------------------------------------------------------------------

def lesser (input : List SortItem) (len child min : Nat) : Option Nat :=
  if child ≤ len - 1 then do
    let a ← input[child]?
    let b ← input[min]?
    return if a.sortInt < b.sortInt then child else min
  else some min

def checkedHeapifyR : Nat → List SortItem → Nat → Nat → Option (List SortItem)
  | 0, _, _, _ => none
  | depth + 1, input, len, i => do
    let left ← toInt (2 * i + 1)
    let right ← toInt (2 * i + 2)
    let min ← lesser input len left i
    let min ← lesser input len right min
    if min ≠ i ∧ min ≤ len - 1 then
      let input ← swap input min i
      checkedHeapifyR depth input len min
    else return input

def checkedBuildMinHeap (input : List SortItem) (len : Nat) : Option (List SortItem) :=
  (List.range ((len - 1) / 2 + 1)).reverse.foldlM (fun input i =>
    checkedHeapifyR (len + 1) input len i) input

def replaceRoot (K : Nat) (input : List SortItem) (x : SortItem) : Option (List SortItem) := do
  let root ← input[0]?
  if x.sortInt > root.sortInt then checkedHeapifyR (K + 1) (input.set 0 x) K 0 else return input

def stream (K : Nat) (input items : List SortItem) : Option (List SortItem) := do
  let input ← checkedBuildMinHeap input K
  items.foldlM (replaceRoot K) input

-- ---------------------------------------------------------------------------
-- The checks
-- ---------------------------------------------------------------------------

variable {input : List SortItem} {len i depth K : Nat}

theorem lesser_eq {child min : Nat} (hlen : input.length = len) (hpos : 1 ≤ len)
    (hmin : min < len) : lesser input len child min =
      some (if child ≤ len - 1 ∧ (item input child).sortInt < (item input min).sortInt
        then child else min) := by
  rw [lesser]
  by_cases hc : child ≤ len - 1
  · rw [if_pos hc, getElem?_item (by omega), getElem?_item (by omega)]
    simp [hc]
  · rw [if_neg hc, if_neg fun h => hc h.1]

theorem lesser_lesser (hlen : input.length = len) (hi : i < len) :
    (lesser input len (2 * i + 1) i).bind (lesser input len (2 * i + 2)) =
      some (minChild input len i) := by
  have hpos : 1 ≤ len := by omega
  rw [lesser_eq hlen hpos hi, Option.bind_some, lesser_eq hlen hpos]
  · rfl
  · split
    · rename_i h
      omega
    · exact hi

/-- No check of `heapify_r` fails. -/
theorem checkedHeapifyR_eq (hlen : input.length = len) (hsmall : len < 2 ^ 30) (hi : i < len)
    (hdepth : len ≤ depth + i) :
    checkedHeapifyR (depth + 1) input len i = some (heapifyLoop depth input len i) := by
  induction depth generalizing input i with
  | zero => omega
  | succ depth ih =>
    have hl : toInt (2 * i + 1) = some (2 * i + 1) := toInt_of_lt (by omega)
    have hr : toInt (2 * i + 2) = some (2 * i + 2) := toInt_of_lt (by omega)
    rw [checkedHeapifyR, hl, hr]
    simp only [Option.bind_eq_bind, Option.bind_some]
    rw [← Option.bind_assoc, lesser_lesser hlen hi, Option.bind_some, heapifyLoop]
    by_cases hmin : minChild input len i ≠ i ∧ minChild input len i ≤ len - 1
    · have hgt : i < minChild input len i := by
        rcases minChild_spec hlen hi with ⟨heq, -⟩ | ⟨hc, -⟩
        · exact absurd heq hmin.1
        · exact hc.lt
      have hb := @getElem?_item input (minChild input len i) (by omega)
      have ha := @getElem?_item input i (by omega)
      rw [if_pos hmin, if_pos hmin, swap_eq hb ha, Option.bind_some]
      exact ih (by simpa using hlen) (by omega) (by omega)
    · rw [if_neg hmin, if_neg hmin]
      rfl

theorem checkedHeapifyR_eq_heapifyR (hlen : input.length = len) (hsmall : len < 2 ^ 30)
    (hi : i < len) : checkedHeapifyR (len + 1) input len i = some (heapifyR input len i) :=
  checkedHeapifyR_eq hlen hsmall hi (Nat.le_add_right len i)

theorem checkedBuildMinHeap_eq (hlen : input.length = len) (hsmall : len < 2 ^ 30)
    (hpos : 1 ≤ len) : checkedBuildMinHeap input len = some (buildMinHeap input len) := by
  have hfrom : ∀ m (input : List SortItem), m ≤ len → input.length = len →
      (List.range m).reverse.foldlM (fun input i => checkedHeapifyR (len + 1) input len i) input =
        some ((List.range m).reverse.foldl (fun input i => heapifyR input len i) input) := by
    intro m
    induction m with
    | zero => exact fun _ _ _ => rfl
    | succ m ih =>
      intro input hm hlen
      rw [List.range_succ, List.reverse_append, List.reverse_singleton, List.singleton_append,
        List.foldlM_cons, List.foldl_cons, checkedHeapifyR_eq_heapifyR hlen hsmall hm]
      exact ih (heapifyR input len m) (by omega) ((length_heapifyR input len m).trans hlen)
  exact hfrom _ input (by omega) hlen

theorem replaceRoot_eq (hlen : input.length = K) (hsmall : K < 2 ^ 30) (hpos : 1 ≤ K)
    (x : SortItem) : replaceRoot K input x =
      some (if key (item input 0) < key x then heapifyR (input.set 0 x) K 0 else input) := by
  have hlt : x.sortInt > (item input 0).sortInt ↔ key (item input 0) < key x :=
    Int32.lt_iff_toInt_lt
  have hset : (input.set 0 x).length = K := by rw [List.length_set, hlen]
  rw [replaceRoot, getElem?_item (by omega), Option.bind_eq_bind, Option.bind_some]
  simp only [hlt]
  rw [checkedHeapifyR_eq_heapifyR hset hsmall hpos]
  split <;> rfl

-- ---------------------------------------------------------------------------
-- The stream
-- ---------------------------------------------------------------------------

theorem stream_spec (hlen : input.length = K) (hsmall : K < 2 ^ 30) (hpos : 1 ≤ K)
    (items : List SortItem) :
    ∃ heap, stream K input items = some heap ∧ OrderedFrom key heap 0 ∧
      Selects key heap (input ++ items) ∧ heap.length = K := by
  rw [stream, checkedBuildMinHeap_eq hlen hsmall hpos, Option.bind_eq_bind, Option.bind_some]
  induction items using List.reverseRecOn with
  | nil =>
    obtain ⟨hord, hp⟩ := buildMinHeap_spec hlen hpos
    rw [List.append_nil]
    exact ⟨_, rfl, hord, selects_of_perm hp, hp.length_eq.trans hlen⟩
  | append_singleton items x ih =>
    obtain ⟨heap, hrun, hord, hsel, hlen'⟩ := ih
    rw [List.foldlM_append, hrun, ← List.append_assoc]
    refine ⟨_, ?_, replaceRoot_spec x hpos hlen' hord hsel⟩
    simp [replaceRoot_eq hlen' hsmall hpos]

/-- After the `K` items of the buffer and any further ones: the heap order, the
`K` largest values, and the `K`-th largest at the root. -/
theorem stream_selects (K : Nat) (input items : List SortItem) (hpos : 1 ≤ K)
    (hsmall : K < 2 ^ 30) (hlen : input.length = K) :
    ∃ heap, stream K input items = some heap ∧ OrderedFrom key heap 0 ∧
      (heap.map key).Perm (largest K ((input ++ items).map key)) ∧
      heap[0]?.map key = kthLargest K ((input ++ items).map key) := by
  obtain ⟨heap, hrun, hord, hsel, hlen'⟩ := stream_spec hlen hsmall hpos items
  refine ⟨heap, hrun, hord, hsel.largest hlen', ?_⟩
  cases heap with
  | nil => exact absurd hlen' (by simp; omega)
  | cons root rest =>
    have hroot : ∀ z ∈ rest, key root ≤ key z := fun z hz =>
      hord.root_le rfl z (List.mem_cons_of_mem _ hz)
    rw [hsel.kthLargest hroot hlen']
    rfl

theorem stream_selects_two :
    ∃ heap, stream 2 [⟨5, 0⟩, ⟨-1, 1⟩] [⟨3, 2⟩, ⟨9, 3⟩] = some heap ∧ OrderedFrom key heap 0 ∧
      (heap.map key).Perm
        (largest 2 (([⟨5, 0⟩, ⟨-1, 1⟩] ++ [⟨3, 2⟩, ⟨9, 3⟩] : List SortItem).map key)) ∧
      heap[0]?.map key =
        kthLargest 2 (([⟨5, 0⟩, ⟨-1, 1⟩] ++ [⟨3, 2⟩, ⟨9, 3⟩] : List SortItem).map key) :=
  stream_selects 2 [⟨5, 0⟩, ⟨-1, 1⟩] [⟨3, 2⟩, ⟨9, 3⟩] (by decide) (by decide) rfl

end TextMining.WordNet.Heap
