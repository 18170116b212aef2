import TextMining.Lib.Cells
import Mathlib.Data.List.Sort
import Mathlib.Order.Nat
import Mathlib.Data.Int.Order.Basic

/-!
# Binary search

`BinarySearch` and `CheckPrev` of `binary_search.cc`. Memory is what can be read
at each index from the start of the array, so it may hold a cell at index -1:
`CheckPrev` reads that cell where the equal elements reach the start.
-/

namespace TextMining.BinarySearch

open Cells

abbrev Memory := Int → Option Int

def cells (array : List Int) : Memory := fun i => if 0 ≤ i then array[i.toNat]? else none

def checkPrevLoop (A : Memory) (index : Nat) : Nat → Int → Option Int
  | 0, _ => none
  | rounds + 1, i => do
    let v ← A i
    let w ← A index
    if v = w ∧ 0 ≤ i then checkPrevLoop A index rounds (i - 1) else return i

def checkPrev (A : Memory) (index : Nat) : Option Int := do
  let i ← checkPrevLoop A index (index + 2) index
  return i + 1

def searchLoop (A : Memory) (target : Int) : Nat → Nat → Nat → Option Int
  | 0, _, _ => none
  | rounds + 1, start, stop =>
    if start < stop then
      if stop - start = 1 then do
        let v ← A start
        if v = target then return (start : Int) else return -1
      else do
        let middle := (← toInt (start + stop)) / 2
        let v ← A middle
        if v = target then checkPrev A middle
        else if target < v then searchLoop A target rounds start middle
        else searchLoop A target rounds middle stop
    else return -1

/-- `BinarySearch`; the range gets shorter in every round. -/
def binarySearch (A : Memory) (len : Nat) (target : Int) : Option Int :=
  if len = 0 then some (-1) else searchLoop A target (len + 1) 0 len

example : binarySearch (cells [2, 6, 11, 11, 11, 123]) 6 11 = some 2 := by decide

-- ---------------------------------------------------------------------------
-- The first occurrence
-- ---------------------------------------------------------------------------

section
variable {array : List Int} {A : Memory} {target : Int} {i j f rounds start stop : Nat}

def First (array : List Int) (target : Int) (f : Nat) : Prop :=
  array[f]? = some target ∧ ∀ i < f, array[i]? ≠ some target

def Finds (array : List Int) (target r : Int) : Prop :=
  (target ∉ array ∧ r = -1) ∨ ∃ f : Nat, First array target f ∧ r = f

def Holds (A : Memory) (array : List Int) : Prop := ∀ i : Nat, i < array.length → A i = array[i]?

theorem holds_cells (array : List Int) : Holds (cells array) array := by
  intro i _
  simp [cells]

theorem exists_first (h : array[i]? = some target) : ∃ f ≤ i, First array target f := by
  have hex : ∃ i, array[i]? = some target := ⟨i, h⟩
  refine ⟨Nat.find hex, Nat.find_min' hex h, Nat.find_spec hex, fun k hk => ?_⟩
  exact Nat.find_min hex hk

theorem First.unique {g : Nat} (hf : First array target f) (hg : First array target g) : f = g := by
  rcases Nat.lt_trichotomy f g with h | h | h
  · exact absurd hf.1 (hg.2 f h)
  · exact h
  · exact absurd hg.1 (hf.2 g h)

theorem le_of_sorted (hs : array.Pairwise (· ≤ ·)) {a b : Int} (hij : i ≤ j)
    (ha : array[i]? = some a) (hb : array[j]? = some b) : a ≤ b := by
  rcases Nat.lt_or_eq_of_le hij with h | rfl
  · obtain ⟨hi, rfl⟩ := List.getElem?_eq_some_iff.mp ha
    obtain ⟨hj, rfl⟩ := List.getElem?_eq_some_iff.mp hb
    exact List.pairwise_iff_getElem.mp hs i j hi hj h
  · cases ha.symm.trans hb
    exact le_refl _

-- ---------------------------------------------------------------------------
-- `CheckPrev`
-- ---------------------------------------------------------------------------

/-- What the walk returns: it ends before the first occurrence, where there is a
cell to read. -/
def backTo (A : Memory) (f : Nat) : Option Int :=
  if f = 0 then (A (-1)).map fun _ => 0 else some f

theorem checkPrevLoop_succ {index : Nat} {i v w : Int} (hv : A i = some v)
    (hw : A index = some w) : checkPrevLoop A index (rounds + 1) i =
      if v = w ∧ 0 ≤ i then checkPrevLoop A index rounds (i - 1) else some i := by
  rw [checkPrevLoop, hv, hw]
  rfl

theorem First.between {index : Nat} (hf : First array target f) (hs : array.Pairwise (· ≤ ·))
    (hindex : array[index]? = some target) (hfi : f ≤ i) (hi : i ≤ index) :
    array[i]? = some target := by
  obtain ⟨hlt, -⟩ := List.getElem?_eq_some_iff.mp hindex
  have hil : array[i]? = some array[i] := List.getElem?_eq_getElem (hi.trans_lt hlt)
  rw [hil, le_antisymm (le_of_sorted hs hi hil hindex) (le_of_sorted hs hfi hf.1 hil)]

theorem checkPrevLoop_spec {index : Nat} (hA : Holds A array) (hs : array.Pairwise (· ≤ ·))
    (hf : First array target f) (hindex : array[index]? = some target) (hfi : f ≤ i)
    (hi : i ≤ index) (hrounds : i - f + 2 ≤ rounds) :
    (checkPrevLoop A index rounds i).map (· + 1) = backTo A f := by
  obtain ⟨hlt, -⟩ := List.getElem?_eq_some_iff.mp hindex
  have hw : A index = some target := (hA index hlt).trans hindex
  have hv : ∀ k : Nat, f ≤ k → k ≤ index → A k = some target := fun k hfk hk =>
    (hA k (hk.trans_lt hlt)).trans (hf.between hs hindex hfk hk)
  induction i, hfi using Nat.le_induction generalizing rounds with
  | base =>
    obtain ⟨rounds, rfl⟩ : ∃ n, rounds = n + 2 := ⟨rounds - 2, by omega⟩
    rw [checkPrevLoop_succ (hv f (le_refl f) hi) hw, if_pos ⟨rfl, Int.natCast_nonneg f⟩, backTo]
    cases f with
    | zero =>
      -- the cell before the array is read before the index is checked
      rw [if_pos rfl]
      cases hprev : A (-1) with
      | none => simp [checkPrevLoop, hprev]
      | some v => simp [checkPrevLoop, hprev, hw]
    | succ f =>
      have hfl : array[f]? = some array[f] := List.getElem?_eq_getElem (by omega)
      have hne : array[f] ≠ target := fun he => hf.2 f (Nat.lt_succ_self f) (he ▸ hfl)
      have hsub : ((f + 1 : Nat) : Int) - 1 = f := by omega
      rw [hsub, checkPrevLoop_succ ((hA f (by omega)).trans hfl) hw, if_neg fun h => hne h.1,
        if_neg (Nat.succ_ne_zero f)]
      rfl
  | succ i hfi ih =>
    obtain ⟨rounds, rfl⟩ : ∃ n, rounds = n + 1 := ⟨rounds - 1, by omega⟩
    have hsub : ((i + 1 : Nat) : Int) - 1 = i := by omega
    rw [checkPrevLoop_succ (hv (i + 1) (by omega) hi) hw, if_pos ⟨rfl, Int.natCast_nonneg _⟩, hsub]
    exact ih (by omega) (by omega)

theorem checkPrev_spec {index : Nat} (hA : Holds A array) (hs : array.Pairwise (· ≤ ·))
    (hf : First array target f) (hindex : array[index]? = some target) (hfi : f ≤ index) :
    checkPrev A index = backTo A f := by
  have hrun := @checkPrevLoop_spec array A target index f (index + 2) index hA hs hf hindex hfi
    (le_refl _) (by omega)
  rw [← hrun, checkPrev]
  cases checkPrevLoop A index (index + 2) index <;> rfl

-- ---------------------------------------------------------------------------
-- `BinarySearch`
-- ---------------------------------------------------------------------------

/-- The range of the loop: every occurrence is within it, and at its start only
where that is the start of the array. -/
structure Range (array : List Int) (target : Int) (start stop : Nat) : Prop where
  start_lt : start < stop
  stop_le : stop ≤ array.length
  above_start : start = 0 ∨ ∃ v, array[start]? = some v ∧ v < target
  below_stop : stop = array.length ∨ ∃ v, array[stop]? = some v ∧ target < v

theorem Range.mem {i : Nat} (h : Range array target start stop) (hs : array.Pairwise (· ≤ ·))
    (hi : array[i]? = some target) : i < stop ∧ (start = 0 ∨ start < i) := by
  constructor
  · rcases h.below_stop with hstop | ⟨v, hv, hlt⟩
    · obtain ⟨hil, -⟩ := List.getElem?_eq_some_iff.mp hi
      rwa [hstop]
    · refine not_le.mp fun hle => ?_
      exact absurd (le_of_sorted hs hle hv hi) (not_le.mpr hlt)
  · rcases h.above_start with hstart | ⟨v, hv, hlt⟩
    · exact .inl hstart
    · refine .inr (not_le.mp fun hle => ?_)
      exact absurd (le_of_sorted hs hle hi hv) (not_le.mpr hlt)

theorem searchLoop_single (hA : Holds A array) (h : Range array target start stop)
    (hone : stop - start = 1) : ∃ v, array[start]? = some v ∧
      searchLoop A target (rounds + 1) start stop =
        some (if v = target then (start : Int) else -1) := by
  have hlt : start < array.length := h.start_lt.trans_le h.stop_le
  have hv : array[start]? = some array[start] := List.getElem?_eq_getElem hlt
  refine ⟨array[start], hv, ?_⟩
  rw [searchLoop, if_pos h.start_lt, if_pos hone, hA start hlt, hv, Option.bind_eq_bind,
    Option.bind_some]
  split <;> rfl

theorem searchLoop_step (hA : Holds A array) (hsmall : array.length < 2 ^ 30)
    (h : Range array target start stop) (hone : stop - start ≠ 1) :
    ∃ v middle, start < middle ∧ middle < stop ∧ array[middle]? = some v ∧
      searchLoop A target (rounds + 1) start stop =
        if v = target then checkPrev A middle
        else if target < v then searchLoop A target rounds start middle
        else searchLoop A target rounds middle stop := by
  have hlt := h.start_lt
  have hle := h.stop_le
  have hmid : (start + stop) / 2 < array.length := by omega
  have hv : array[(start + stop) / 2]? = some array[(start + stop) / 2] :=
    List.getElem?_eq_getElem hmid
  have hsum : toInt (start + stop) = some (start + stop) := toInt_of_lt (by omega)
  refine ⟨_, (start + stop) / 2, by omega, by omega, hv, ?_⟩
  rw [searchLoop, if_pos hlt, if_neg hone, hsum]
  simp only [Option.bind_eq_bind, Option.bind_some]
  rw [hA _ hmid, hv]
  rfl

theorem Range.left {middle : Nat} {v : Int} (h : Range array target start stop)
    (hsm : start < middle) (hms : middle < stop) (hv : array[middle]? = some v)
    (hlt : target < v) : Range array target start middle :=
  ⟨hsm, hms.le.trans h.stop_le, h.above_start, .inr ⟨v, hv, hlt⟩⟩

theorem Range.right {middle : Nat} {v : Int} (h : Range array target start stop)
    (hms : middle < stop) (hv : array[middle]? = some v) (hlt : v < target) :
    Range array target middle stop :=
  ⟨hms, h.stop_le, .inr ⟨v, hv, hlt⟩, h.below_stop⟩

theorem searchLoop_of_notMem (hA : Holds A array) (hsmall : array.length < 2 ^ 30)
    (hnone : target ∉ array) (h : Range array target start stop) (hrounds : stop - start ≤ rounds) :
    searchLoop A target rounds start stop = some (-1) := by
  have hne : ∀ {i : Nat} {v : Int}, array[i]? = some v → v ≠ target := fun hv he =>
    hnone (he ▸ List.mem_of_getElem? hv)
  induction rounds generalizing start stop with
  | zero => exact absurd h.start_lt (by omega)
  | succ rounds ih =>
    by_cases hone : stop - start = 1
    · obtain ⟨v, hv, hrun⟩ := @searchLoop_single array A target rounds start stop hA h hone
      rw [hrun, if_neg (hne hv)]
    · obtain ⟨v, middle, hsm, hms, hv, hrun⟩ :=
        @searchLoop_step array A target rounds start stop hA hsmall h hone
      rw [hrun, if_neg (hne hv)]
      by_cases hlt : target < v
      · rw [if_pos hlt]
        exact ih (h.left hsm hms hv hlt) (by omega)
      · rw [if_neg hlt]
        exact ih (h.right hms hv (lt_of_le_of_ne (not_lt.mp hlt) (hne hv))) (by omega)

def Repeats (array : List Int) (target : Int) : Prop :=
  array[0]? = some target ∧ array[1]? = some target

instance (array : List Int) (target : Int) : Decidable (Repeats array target) :=
  inferInstanceAs (Decidable (_ ∧ _))

theorem backTo_eq (hs : array.Pairwise (· ≤ ·)) (hf : First array target f)
    (hi : array[i]? = some target) (hpos : 0 < i) :
    backTo A f = if Repeats array target then (A (-1)).map fun _ => 0 else some (f : Int) := by
  rw [backTo]
  cases f with
  | zero => rw [if_pos rfl, if_pos ⟨hf.1, hf.between hs hi (Nat.zero_le 1) hpos⟩]
  | succ f =>
    have hno : ¬ Repeats array target := fun h => hf.2 0 (Nat.succ_pos f) h.1
    rw [if_neg (Nat.succ_ne_zero f), if_neg hno]

theorem searchLoop_spec (hA : Holds A array) (hs : array.Pairwise (· ≤ ·))
    (hsmall : array.length < 2 ^ 30) (hf : First array target f)
    (h : Range array target start stop) (hrounds : stop - start ≤ rounds) :
    searchLoop A target rounds start stop =
      if Repeats array target then (A (-1)).map fun _ => 0 else some (f : Int) := by
  induction rounds generalizing start stop with
  | zero => exact absurd h.start_lt (by omega)
  | succ rounds ih =>
    by_cases hone : stop - start = 1
    · obtain ⟨v, hv, hrun⟩ := @searchLoop_single array A target rounds start stop hA h hone
      obtain ⟨hstop, hstart⟩ := h.mem hs hf.1
      obtain rfl : start = f := by omega
      have hno : ¬ Repeats array target := fun hr => by
        obtain ⟨hstop, -⟩ := h.mem hs hr.2
        omega
      rw [hrun, if_neg hno, if_pos (Option.some.inj (hv.symm.trans hf.1))]
    · obtain ⟨v, middle, hsm, hms, hv, hrun⟩ :=
        @searchLoop_step array A target rounds start stop hA hsmall h hone
      rw [hrun]
      by_cases heq : v = target
      · subst heq
        have hfm : f ≤ middle := not_lt.mp fun hlt => hf.2 middle hlt hv
        rw [if_pos rfl, checkPrev_spec hA hs hf hv hfm]
        exact backTo_eq hs hf hv (by omega)
      · rw [if_neg heq]
        by_cases hlt : target < v
        · rw [if_pos hlt]
          exact ih (h.left hsm hms hv hlt) (by omega)
        · rw [if_neg hlt]
          exact ih (h.right hms hv (lt_of_le_of_ne (not_lt.mp hlt) heq)) (by omega)

theorem range_start (target : Int) (hpos : 0 < array.length) :
    Range array target 0 array.length :=
  ⟨hpos, le_refl _, .inl rfl, .inl rfl⟩

theorem binarySearch_finds (hA : Holds A array) (hs : array.Pairwise (· ≤ ·))
    (hsmall : array.length < 2 ^ 30) (hprev : Repeats array target → (A (-1)).isSome) :
    ∃ r, binarySearch A array.length target = some r ∧ Finds array target r := by
  rw [binarySearch]
  split
  · rename_i hempty
    obtain rfl := List.length_eq_zero_iff.mp hempty
    exact ⟨-1, rfl, .inl ⟨List.not_mem_nil, rfl⟩⟩
  · rename_i hpos
    have hstart := range_start target (Nat.pos_of_ne_zero hpos)
    by_cases hmem : target ∈ array
    · obtain ⟨i, hi⟩ := List.mem_iff_getElem?.mp hmem
      obtain ⟨f, -, hf⟩ := exists_first hi
      rw [searchLoop_spec hA hs hsmall hf hstart (by omega)]
      split
      · rename_i hrep
        have hf0 : First array target 0 := ⟨hrep.1, fun i hi => absurd hi (Nat.not_lt_zero i)⟩
        obtain ⟨w, hw⟩ := Option.isSome_iff_exists.mp (hprev hrep)
        exact ⟨0, by rw [hw]; rfl, .inr ⟨0, hf0, rfl⟩⟩
      · exact ⟨f, rfl, .inr ⟨f, hf, rfl⟩⟩
    · exact ⟨-1, searchLoop_of_notMem hA hsmall hmem hstart (by omega), .inl ⟨hmem, rfl⟩⟩

/-- On the array alone the function has its result unless the target stands at
the first two indices. -/
theorem binarySearch_finds_iff (array : List Int) (target : Int) (hs : array.Pairwise (· ≤ ·))
    (hpos : 0 < array.length) (hsmall : array.length < 2 ^ 30) :
    (∃ r, binarySearch (cells array) array.length target = some r ∧ Finds array target r) ↔
      ¬ (array[0]? = some target ∧ array[1]? = some target) := by
  constructor
  · rintro ⟨r, hrun, -⟩ (hrep : Repeats array target)
    have hf : First array target 0 := ⟨hrep.1, fun i hi => absurd hi (Nat.not_lt_zero i)⟩
    rw [binarySearch, if_neg hpos.ne', searchLoop_spec (holds_cells array) hs hsmall hf
      (range_start target hpos) (by omega), if_pos hrep] at hrun
    cases hrun
  · intro hno
    exact binarySearch_finds (holds_cells array) hs hsmall fun hrep => absurd hrep hno

theorem binarySearch_finds_iff_pair :
    (∃ r, binarySearch (cells [3, 7]) 2 3 = some r ∧ Finds [3, 7] 3 r) ↔
      ¬ (([3, 7] : List Int)[0]? = some 3 ∧ ([3, 7] : List Int)[1]? = some 3) :=
  binarySearch_finds_iff [3, 7] 3 (by decide) (by decide) (by decide)

/-- `CheckPrev` reads the cell before the array. -/
theorem binarySearch_reads_before :
    binarySearch (cells [5, 5]) 2 5 = none ∧
      ¬ ∃ r, binarySearch (cells [5, 5]) 2 5 = some r ∧ Finds [5, 5] 5 r := by
  have hrun : binarySearch (cells [5, 5]) 2 5 = none := by decide
  refine ⟨hrun, ?_⟩
  rintro ⟨r, hr, -⟩
  cases hrun.symm.trans hr

end

end TextMining.BinarySearch
