import TextMining.Lib.Cells
import Mathlib.Data.List.Sort
import Mathlib.Order.Nat
import Mathlib.Data.Int.Order.Basic

/-!
# Quick sort

`qsort` of `quick_sort.cc`. The pivot is the first element, and the partition
loop moves it like any other; `middle_index` ends as the number of smaller
elements. The range that a call sorts starts at `base`, which stands for the
pointer `sort_array`.
-/

namespace TextMining.QuickSort

open Cells

def partitionLoop (base : Nat) (middle : Int) :
    Nat → Nat → List Int → Nat → Option (List Int × Nat)
  | 0, _, mem, middleIndex => some (mem, middleIndex)
  | n + 1, i, mem, middleIndex => do
    let v ← mem[base + i]?
    if v < middle then
      let mem ← swap mem (base + i) (base + middleIndex)
      partitionLoop base middle n (i + 1) mem (middleIndex + 1)
    else partitionLoop base middle n (i + 1) mem middleIndex

def partition (mem : List Int) (base arraySize : Nat) : Option (List Int × Nat) := do
  let middle ← mem[base]?
  let (mem, middleIndex) ← partitionLoop base middle arraySize 0 mem 0
  return (mem, if middleIndex = 0 then middleIndex + 1 else middleIndex)

def qsort : Nat → List Int → Nat → Nat → Option (List Int)
  | 0, mem, _, arraySize => if arraySize ≤ 1 then some mem else none
  | depth + 1, mem, base, arraySize =>
    if arraySize ≤ 1 then some mem
    else do
      let (mem, middleIndex) ← partition mem base arraySize
      let mem ← qsort depth mem base middleIndex
      qsort depth mem (base + middleIndex) (arraySize - middleIndex)

example : qsort 5 [3, 1, 3, 0, 2, 9] 0 5 = some [0, 1, 2, 3, 3, 9] := by decide

-- ---------------------------------------------------------------------------
-- The partition
-- ---------------------------------------------------------------------------

variable {middle v : Int} {before after lows highs rest seg : List Int}

theorem swap_low (lows highs rest : List Int) (v : Int) :
    ∃ highs', highs'.Perm highs ∧
      swap (lows ++ highs ++ v :: rest) (lows.length + highs.length) lows.length =
        some (lows ++ [v] ++ highs' ++ rest) := by
  have hi : (lows ++ highs ++ v :: rest)[lows.length + highs.length]? = some v := by
    rw [← List.length_append, List.getElem?_append_right (le_refl _), Nat.sub_self]
    rfl
  cases highs with
  | nil =>
    refine ⟨[], .refl _, ?_⟩
    rw [List.length_nil, Nat.add_zero] at hi ⊢
    rw [swap_eq hi hi]
    simp
  | cons h hs =>
    refine ⟨hs ++ [h], List.perm_append_singleton h hs, ?_⟩
    have hj : (lows ++ h :: hs ++ v :: rest)[lows.length]? = some h := by simp
    rw [swap_eq hi hj, ← List.length_append, List.set_append_right _ _ (le_refl _)]
    simp

theorem partitionLoop_spec (before after : List Int) (hlow : ∀ x ∈ lows, x < middle)
    (hhigh : ∀ x ∈ highs, middle ≤ x) :
    ∃ lows' highs', partitionLoop before.length middle rest.length (lows.length + highs.length)
        (before ++ (lows ++ highs ++ rest) ++ after) lows.length =
          some (before ++ (lows' ++ highs') ++ after, lows'.length) ∧
      (lows' ++ highs').Perm (lows ++ highs ++ rest) ∧ (∀ x ∈ lows', x < middle) ∧
      (∀ x ∈ highs', middle ≤ x) ∧ lows.length ≤ lows'.length ∧
      (lows' = [] → highs' = highs ++ rest) := by
  induction rest generalizing lows highs with
  | nil =>
    refine ⟨lows, highs, ?_, ?_, hlow, hhigh, le_refl _, fun _ => ?_⟩
    · simp [partitionLoop]
    · simp
    · simp
  | cons v rest ih =>
    have hlen : lows.length + highs.length < (lows ++ highs ++ v :: rest).length := by simp
    have hget : (before ++ (lows ++ highs ++ v :: rest) ++ after)[before.length +
        (lows.length + highs.length)]? = some v := by
      rw [getElem?_frame before after hlen, ← List.length_append,
        List.getElem?_append_right (le_refl _), Nat.sub_self]
      rfl
    simp only [List.length_cons, partitionLoop, hget, Option.bind_eq_bind, Option.bind_some]
    by_cases hv : v < middle
    · obtain ⟨highs', hperm, hswap⟩ := swap_low lows highs rest v
      have hlow' : ∀ x ∈ lows ++ [v], x < middle := by
        intro x hx
        rcases List.mem_append.mp hx with hx | hx
        · exact hlow x hx
        · rwa [List.mem_singleton.mp hx]
      have hhigh' : ∀ x ∈ highs', middle ≤ x := fun x hx => hhigh x (hperm.mem_iff.mp hx)
      obtain ⟨lows'', highs'', hrun, hp, hl, hh, hle, -⟩ := ih hlow' hhigh'
      rw [List.length_append, List.length_singleton] at hle
      refine ⟨lows'', highs'', ?_, ?_, hl, hh, by omega, ?_⟩
      · rw [if_pos hv, swap_frame before after hlen
            ((Nat.le_add_right _ _).trans_lt hlen), hswap, Option.map_some,
          Option.bind_some, ← hrun, List.length_append, List.length_singleton, hperm.length_eq,
          Nat.add_right_comm lows.length 1]
      · refine hp.trans ?_
        have hmid : (v :: (highs' ++ rest)).Perm (highs ++ v :: rest) :=
          ((hperm.append_right rest).cons v).trans List.perm_middle.symm
        simpa using hmid.append_left lows
      · rintro rfl
        simp at hle
    · have hhigh' : ∀ x ∈ highs ++ [v], middle ≤ x := by
        intro x hx
        rcases List.mem_append.mp hx with hx | hx
        · exact hhigh x hx
        · rw [List.mem_singleton.mp hx]
          exact not_lt.mp hv
      obtain ⟨lows', highs', hrun, hp, hl, hh, hle, hnone⟩ := ih hlow hhigh'
      refine ⟨lows', highs', ?_, ?_, hl, hh, hle, ?_⟩
      · rw [if_neg hv, ← hrun]
        simp [Nat.add_assoc]
      · simpa using hp
      · simpa using hnone

/-- The patch of `middle_index` leaves no part empty. -/
theorem partition_spec (before after : List Int) (h : 2 ≤ seg.length) :
    ∃ low high, partition (before ++ seg ++ after) before.length seg.length =
        some (before ++ (low ++ high) ++ after, low.length) ∧
      (low ++ high).Perm seg ∧ low ≠ [] ∧ high ≠ [] ∧ ∀ x ∈ low, ∀ y ∈ high, x ≤ y := by
  cases seg with
  | nil => simp at h
  | cons middle seg =>
    have hget : (before ++ middle :: seg ++ after)[before.length]? = some middle := by simp
    obtain ⟨lows, highs, hrun, hperm, hlow, hhigh, -, hnone⟩ :=
      @partitionLoop_spec middle [] [] (middle :: seg) before after (by simp) (by simp)
    simp only [List.nil_append, List.length_nil, Nat.add_zero] at hrun hperm hnone
    rw [partition, hget]
    simp only [Option.bind_eq_bind, Option.bind_some, hrun]
    cases lows with
    | nil =>
      -- the pivot is a smallest element and stays where it is
      obtain rfl := hnone rfl
      refine ⟨[middle], seg, rfl, .refl _, by simp, ?_, ?_⟩
      · rintro rfl
        simp at h
      · intro x hx y hy
        rw [List.mem_singleton.mp hx]
        exact hhigh y (List.mem_cons_of_mem _ hy)
    | cons l lows =>
      have hmid : middle ∈ highs := by
        rcases List.mem_append.mp (hperm.mem_iff.mpr List.mem_cons_self) with hm | hm
        · exact absurd (hlow middle hm) (lt_irrefl _)
        · exact hm
      refine ⟨l :: lows, highs, rfl, hperm, by simp, List.ne_nil_of_mem hmid, ?_⟩
      exact fun x hx y hy => (hlow x hx).le.trans (hhigh y hy)

-- ---------------------------------------------------------------------------
-- The recursion
-- ---------------------------------------------------------------------------

theorem qsort_spec {depth : Nat} (before after : List Int) (h : seg.length ≤ depth + 1) :
    ∃ sorted, qsort depth (before ++ seg ++ after) before.length seg.length =
        some (before ++ sorted ++ after) ∧ sorted.Perm seg ∧ sorted.Pairwise (· ≤ ·) := by
  induction depth generalizing before seg after with
  | zero =>
    refine ⟨seg, if_pos h, .refl _, ?_⟩
    match seg, h with
    | [], _ => exact .nil
    | [x], _ => exact List.pairwise_singleton _ x
  | succ depth ih =>
    by_cases hone : seg.length ≤ 1
    · refine ⟨seg, if_pos hone, .refl _, ?_⟩
      match seg, hone with
      | [], _ => exact .nil
      | [x], _ => exact List.pairwise_singleton _ x
    · obtain ⟨low, high, hrun, hperm, hlow, hhigh, hle⟩ :=
        partition_spec before after (Nat.lt_of_not_le hone)
      have hlen := hperm.length_eq
      rw [List.length_append] at hlen
      have hposl := List.length_pos_of_ne_nil hlow
      have hposh := List.length_pos_of_ne_nil hhigh
      obtain ⟨low', hrunl, hpl, hsl⟩ := @ih low before (high ++ after) (by omega)
      obtain ⟨high', hrunh, hph, hsh⟩ := @ih high (before ++ low') after (by omega)
      refine ⟨low' ++ high', ?_, (hpl.append hph).trans hperm, ?_⟩
      · have hafter : before ++ (low ++ high) ++ after = before ++ low ++ (high ++ after) := by simp
        have hmid : before ++ low' ++ (high ++ after) = before ++ low' ++ high ++ after := by simp
        have hbase : before.length + low.length = (before ++ low').length := by
          rw [List.length_append, hpl.length_eq]
        have hsize : seg.length - low.length = high.length := by omega
        rw [qsort, if_neg hone, hrun]
        simp only [Option.bind_eq_bind, Option.bind_some]
        rw [hafter, hrunl, Option.bind_some, hmid, hbase, hsize, hrunh]
        simp
      · refine List.pairwise_append.mpr ⟨hsl, hsh, fun x hx y hy => ?_⟩
        exact hle x (hpl.mem_iff.mp hx) y (hph.mem_iff.mp hy)

/-- As many nested calls as there are elements suffice, since both calls are on
shorter ranges that are not empty. -/
theorem qsort_sorts (array : List Int) (arraySize : Nat) (h : arraySize ≤ array.length) :
    (∃ sorted, (∀ depth, arraySize ≤ depth →
        qsort depth array 0 arraySize = some (sorted ++ array.drop arraySize)) ∧
      sorted.Perm (array.take arraySize) ∧ sorted.Pairwise (· ≤ ·)) ∧
    ∀ (mem : List Int) (base size : Nat), base + size ≤ mem.length → 2 ≤ size →
      ∃ mem' middleIndex, partition mem base size = some (mem', middleIndex) ∧
        0 < middleIndex ∧ middleIndex < size := by
  constructor
  · have hlen : (array.take arraySize).length = arraySize := List.length_take_of_le h
    have hrun : ∀ depth, arraySize ≤ depth → ∃ sorted, qsort depth array 0 arraySize =
        some (sorted ++ array.drop arraySize) ∧ sorted.Perm (array.take arraySize) ∧
        sorted.Pairwise (· ≤ ·) := by
      intro depth hdepth
      obtain ⟨sorted, hs, hperm, hsorted⟩ := @qsort_spec (array.take arraySize) depth []
        (array.drop arraySize) (by omega)
      rw [List.nil_append, List.take_append_drop, hlen] at hs
      exact ⟨sorted, hs, hperm, hsorted⟩
    obtain ⟨sorted, -, hperm, hsorted⟩ := hrun arraySize (le_refl _)
    refine ⟨sorted, fun depth hdepth => ?_, hperm, hsorted⟩
    obtain ⟨sorted', hs, hperm', hsorted'⟩ := hrun depth hdepth
    rw [hs, (hperm'.trans hperm.symm).eq_of_pairwise (fun _ _ _ _ => le_antisymm) hsorted' hsorted]
  · intro mem base size hmem hsize
    have hsplit : mem.take base ++ (mem.drop base).take size ++ mem.drop (base + size) = mem := by
      rw [List.append_assoc, ← List.drop_drop, List.take_append_drop, List.take_append_drop]
    have hbase : (mem.take base).length = base := List.length_take_of_le (by omega)
    have hseg : ((mem.drop base).take size).length = size := by
      rw [List.length_take, List.length_drop, Nat.min_eq_left (by omega)]
    obtain ⟨low, high, hrun, hperm, hlow, hhigh, -⟩ := @partition_spec
      ((mem.drop base).take size) (mem.take base) (mem.drop (base + size)) (by omega)
    rw [hsplit, hbase, hseg] at hrun
    have hlen := hperm.length_eq
    rw [List.length_append, hseg] at hlen
    have hposl := List.length_pos_of_ne_nil hlow
    have hposh := List.length_pos_of_ne_nil hhigh
    exact ⟨_, _, hrun, hposl, by omega⟩

theorem qsort_sorts_five :
    ∃ sorted, (∀ depth, 5 ≤ depth → qsort depth [3, 1, 3, 0, 2, 9] 0 5 = some (sorted ++ [9])) ∧
      sorted.Perm [3, 1, 3, 0, 2] ∧ sorted.Pairwise (· ≤ ·) :=
  (qsort_sorts [3, 1, 3, 0, 2, 9] 5 (by decide)).1

end TextMining.QuickSort
