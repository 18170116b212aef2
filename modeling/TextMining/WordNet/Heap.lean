import Mathlib.Data.List.Basic

/-!
# The min heap of the top-K selections

`heapify_r` and `build_min_heap`, which the indexer and the server each have
in the same form. `len` is at least 1 and the length of the buffer.
-/

namespace TextMining.WordNet

structure SortItem where
  sortInt : Int32
  appendix : Int32
  deriving DecidableEq, Repr

namespace Heap

def item (input : List SortItem) (i : Nat) : SortItem := input[i]?.getD ⟨0, 0⟩

/-- The child, if any, that `heapify_r` swaps with the item at `i`. -/
def minChild (input : List SortItem) (len i : Nat) : Nat :=
  let min := i
  let min :=
    if 2 * i + 1 ≤ len - 1 ∧ (item input (2 * i + 1)).sortInt < (item input i).sortInt
    then 2 * i + 1 else min
  if 2 * i + 2 ≤ len - 1 ∧ (item input (2 * i + 2)).sortInt < (item input min).sortInt
  then 2 * i + 2 else min

/-- The recursion goes to a child, so `len` calls suffice. -/
def heapifyLoop : Nat → List SortItem → Nat → Nat → List SortItem
  | 0, input, _, _ => input
  | fuel + 1, input, len, i =>
    let min := minChild input len i
    if min ≠ i ∧ min ≤ len - 1 then
      let input := (input.set min (item input i)).set i (item input min)
      heapifyLoop fuel input len min
    else input

def heapifyR (input : List SortItem) (len i : Nat) : List SortItem := heapifyLoop len input len i

def buildMinHeap (input : List SortItem) (len : Nat) : List SortItem :=
  (List.range ((len - 1) / 2 + 1)).reverse.foldl (fun input i => heapifyR input len i) input

end Heap

end TextMining.WordNet
