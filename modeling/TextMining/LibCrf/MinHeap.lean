import TextMining.Lib.MinHeap
import Mathlib.Order.Nat
import Mathlib.Data.Int.Order.Basic

/-!
# The agenda of the tagger

`min_heap.cpp` of libcrf: the partial taggings that `next` has still to extend,
in a binary heap by `fx`. Elements are never changed once they are in the heap,
so an element holds the nodes its `next` pointers lead to.
-/

namespace TextMining.LibCrf

open MinHeap

/-- `x` and `y` of the element's `node`; `next` lists the nodes of the elements
behind it, as pairs of `x` and `y`. -/
structure QueueElement where
  x : Nat
  y : Nat
  next : List (Nat × Nat)
  fx : Int
  gx : Int
deriving DecidableEq, Repr

/-- `elemSize` counts the elements taken from `elem_list` since the last reset;
`elemPtrList` holds the pointers at the positions 1 to `size`. -/
structure Heap where
  capacity : Nat
  elemSize : Nat
  elemPtrList : List QueueElement
deriving DecidableEq, Repr

namespace Heap

def size (h : Heap) : Nat := h.elemPtrList.length

def init (maxSize : Nat) : Heap := ⟨maxSize, 0, []⟩

def reset (h : Heap) : Heap := { h with elemSize := 0, elemPtrList := [] }

/-- `allc_from_heap`; `none` when all elements have been given out. -/
def alloc (h : Heap) : Option Heap :=
  if h.elemSize ≥ h.capacity then none else some { h with elemSize := h.elemSize + 1 }

/-- The loop of `heap_insert`, which halves `i`. -/
def insertLoop : Nat → List QueueElement → Nat → QueueElement → List QueueElement
  | 0, ptrs, _, _ => ptrs
  | fuel + 1, ptrs, i, qe =>
    match ptrs[i / 2 - 1]? with
    | some parent =>
      if i ≠ 1 ∧ parent.fx > qe.fx then insertLoop fuel (ptrs.set (i - 1) parent) (i / 2) qe
      else ptrs.set (i - 1) qe
    | none => ptrs.set (i - 1) qe

def insert (h : Heap) (qe : QueueElement) : Option Heap :=
  if h.size ≥ h.capacity then none
  else some { h with
    elemPtrList := insertLoop (h.size + 1) (h.elemPtrList ++ [qe]) (h.size + 1) qe }

def child (ptrs : List QueueElement) (ci : Nat) : Nat :=
  match ptrs[ci - 1]?, ptrs[ci]? with
  | some a, some b => if a.fx > b.fx then ci + 1 else ci
  | _, _ => ci

/-- The loop of `heap_delete_min`, which at least doubles `i`. -/
def deleteLoop : Nat → List QueueElement → Nat → QueueElement → List QueueElement
  | 0, ptrs, _, _ => ptrs
  | fuel + 1, ptrs, i, last =>
    let ci := child ptrs (2 * i)
    match ptrs[ci - 1]? with
    | some smaller =>
      if last.fx ≤ smaller.fx then ptrs.set (i - 1) last
      else deleteLoop fuel (ptrs.set (i - 1) smaller) ci last
    | none => ptrs.set (i - 1) last

/-- `heap_delete_min`, which is called on a heap that is not empty. -/
def deleteMin (h : Heap) : Option (QueueElement × Heap) :=
  match h.elemPtrList, h.elemPtrList.getLast? with
  | min :: _, some last =>
    some (min, { h with
      elemPtrList := deleteLoop (h.size + 1) h.elemPtrList.dropLast 1 last })
  | _, _ => none

/-- The heap order, and no more elements in the heap than have been given out. -/
structure WF (h : Heap) : Prop where
  ordered : OrderedFrom QueueElement.fx h.elemPtrList 0
  size_le : h.size ≤ h.elemSize
  elemSize_le : h.elemSize ≤ h.capacity

-- ---------------------------------------------------------------------------
-- Insertion
-- ---------------------------------------------------------------------------

variable {h h' : Heap} {qe last : QueueElement} {ptrs : List QueueElement} {i fuel : Nat}

theorem isChild_half (h : 1 < i) : IsChild (i - 1) (i / 2 - 1) := by
  unfold IsChild
  omega

theorem eq_half_of_isChild {p : Nat} (h : IsChild (i - 1) p) : p = i / 2 - 1 := by
  unfold IsChild at h
  omega

/-- The element rises to its place, though it is written there only at the end. -/
theorem insertLoop_spec (hi : 0 < i) (hlen : i ≤ ptrs.length) (hfuel : i ≤ fuel)
    (h : Rising QueueElement.fx (ptrs.set (i - 1) qe) (i - 1)) :
    OrderedFrom QueueElement.fx (insertLoop fuel ptrs i qe) 0 ∧
      (insertLoop fuel ptrs i qe).Perm (ptrs.set (i - 1) qe) := by
  induction fuel generalizing ptrs i with
  | zero => omega
  | succ fuel ih =>
    have hself : (ptrs.set (i - 1) qe)[i - 1]? = some qe :=
      List.getElem?_set_self (by omega)
    have hlt : i / 2 - 1 < ptrs.length := by omega
    rw [insertLoop, List.getElem?_eq_getElem hlt]
    by_cases hrise : i ≠ 1 ∧ ptrs[i / 2 - 1].fx > qe.fx
    · have hchild := isChild_half (i := i) (by omega)
      have hparent : (ptrs.set (i - 1) qe)[i / 2 - 1]? = some ptrs[i / 2 - 1] := by
        rw [List.getElem?_set_ne hchild.lt.ne', List.getElem?_eq_getElem hlt]
      have hset : ((ptrs.set (i - 1) qe).set (i - 1) ptrs[i / 2 - 1]).set (i / 2 - 1) qe =
          (ptrs.set (i - 1) ptrs[i / 2 - 1]).set (i / 2 - 1) qe := by
        rw [List.set_set]
      have hup := h.swap hchild hparent hself hrise.2
      have hperm := swap_perm hself hparent
      rw [hset] at hup
      rw [List.set_comm _ _ hchild.lt.ne, hset] at hperm
      obtain ⟨hord, hp⟩ := @ih (ptrs.set (i - 1) ptrs[i / 2 - 1]) (i / 2) (by omega)
        (by simp; omega) (by omega) hup
      simp only [if_pos hrise]
      exact ⟨hord, hp.trans hperm⟩
    · simp only [if_neg hrise]
      refine ⟨h.finish fun p hp a b ha hb => ?_, .refl _⟩
      cases eq_half_of_isChild hp
      rw [List.getElem?_set_ne hp.lt.ne', List.getElem?_eq_getElem hlt] at ha
      cases ha
      cases hself.symm.trans hb
      have hne : i ≠ 1 := by
        rintro rfl
        exact absurd hp.lt (by simp)
      exact not_lt.mp fun hgt => hrise ⟨hne, hgt⟩

theorem insert_spec (hwf : h.WF) (hroom : h.size < h.elemSize) :
    ∃ h', h.insert qe = some h' ∧ h'.WF ∧ h'.capacity = h.capacity ∧ h'.elemSize = h.elemSize ∧
      h'.elemPtrList.Perm (h.elemPtrList ++ [qe]) := by
  have hlt : h.size < h.capacity := Nat.lt_of_lt_of_le hroom hwf.elemSize_le
  have hset : (h.elemPtrList ++ [qe]).set (h.size + 1 - 1) qe = h.elemPtrList ++ [qe] := by
    simp [size]
  obtain ⟨hord, hperm⟩ := @insertLoop_spec qe (h.elemPtrList ++ [qe])
    (h.size + 1) (h.size + 1) (by omega) (by simp [size]) le_rfl
    (by rw [hset]; exact hwf.ordered.append qe)
  rw [hset] at hperm
  refine ⟨_, if_neg (Nat.not_le_of_lt hlt), ⟨hord, ?_, hwf.elemSize_le⟩, rfl, rfl, hperm⟩
  have hlen := hperm.length_eq
  rw [List.length_append, List.length_singleton] at hlen
  exact hlen.trans_le hroom

-- ---------------------------------------------------------------------------
-- Deletion
-- ---------------------------------------------------------------------------

theorem child_spec (ptrs : List QueueElement) (hi : 0 < i) :
    (ptrs.length < 2 * i ∧ ptrs[child ptrs (2 * i) - 1]? = none) ∨
    (IsChild (child ptrs (2 * i) - 1) (i - 1) ∧ child ptrs (2 * i) ≤ ptrs.length ∧
      ∀ c, IsChild c (i - 1) → InOrder QueueElement.fx ptrs (child ptrs (2 * i) - 1) c) := by
  by_cases hleft : ptrs.length < 2 * i
  · have hnone : ptrs[2 * i - 1]? = none := List.getElem?_eq_none (by omega)
    have hci : child ptrs (2 * i) = 2 * i := by simp [child, hnone]
    refine .inl ⟨hleft, ?_⟩
    rw [hci]
    exact hnone
  have ha : ptrs[2 * i - 1]? = some ptrs[2 * i - 1] := List.getElem?_eq_getElem (by omega)
  refine .inr ?_
  cases hb : ptrs[2 * i]? with
  | none =>
    have hci : child ptrs (2 * i) = 2 * i := by simp [child, hb]
    rw [hci]
    refine ⟨by unfold IsChild; omega, by omega, fun c hc x y hx hy => ?_⟩
    obtain rfl | rfl := hc
    · rw [show 2 * (i - 1) + 1 = 2 * i - 1 by omega] at hy
      rw [Option.some.inj (hx.symm.trans hy)]
    · rw [show 2 * (i - 1) + 2 = 2 * i by omega, hb] at hy
      cases hy
  | some b =>
    obtain ⟨hlt, -⟩ := List.getElem?_eq_some_iff.mp hb
    have hci : child ptrs (2 * i) = if ptrs[2 * i - 1].fx > b.fx then 2 * i + 1 else 2 * i := by
      simp [child, ha, hb]
    rw [hci]
    split
    · rename_i hgt
      refine ⟨by unfold IsChild; omega, by omega, fun c hc x y hx hy => ?_⟩
      rw [show 2 * i + 1 - 1 = 2 * i by omega, hb] at hx
      cases hx
      obtain rfl | rfl := hc
      · rw [show 2 * (i - 1) + 1 = 2 * i - 1 by omega, ha] at hy
        cases hy
        exact hgt.le
      · rw [show 2 * (i - 1) + 2 = 2 * i by omega, hb] at hy
        cases hy
        exact le_rfl
    · rename_i hle
      refine ⟨by unfold IsChild; omega, by omega, fun c hc x y hx hy => ?_⟩
      rw [ha] at hx
      cases hx
      obtain rfl | rfl := hc
      · rw [show 2 * (i - 1) + 1 = 2 * i - 1 by omega, ha] at hy
        cases hy
        exact le_rfl
      · rw [show 2 * (i - 1) + 2 = 2 * i by omega, hb] at hy
        cases hy
        exact not_lt.mp hle

/-- The last element sinks from the root, where it is not written before the end. -/
theorem deleteLoop_spec (hi : 0 < i) (hlen : i ≤ ptrs.length) (hfuel : ptrs.length < fuel + i)
    (h : Sinking QueueElement.fx (ptrs.set (i - 1) last) 0 (i - 1)) :
    OrderedFrom QueueElement.fx (deleteLoop fuel ptrs i last) 0 ∧
      (deleteLoop fuel ptrs i last).Perm (ptrs.set (i - 1) last) := by
  induction fuel generalizing ptrs i with
  | zero => omega
  | succ fuel ih =>
    have hself : (ptrs.set (i - 1) last)[i - 1]? = some last :=
      List.getElem?_set_self (by omega)
    rw [deleteLoop]
    rcases child_spec ptrs hi with ⟨hleaf, hnone⟩ | ⟨hchild, hci, hmin⟩
    · simp only [hnone]
      refine ⟨h.finish fun c hc a b _ hb => ?_, .refl _⟩
      obtain ⟨hlt, -⟩ := List.getElem?_eq_some_iff.mp hb
      rw [List.length_set] at hlt
      unfold IsChild at hc
      omega
    · generalize child ptrs (2 * i) = ci at hchild hci hmin
      have hcpos : ci - 1 < ptrs.length := by have := hchild.lt; omega
      have hb := List.getElem?_eq_getElem hcpos
      have hbset : (ptrs.set (i - 1) last)[ci - 1]? = some ptrs[ci - 1] := by
        rw [List.getElem?_set_ne hchild.lt.ne, hb]
      have hminset : ∀ c, IsChild c (i - 1) →
          InOrder QueueElement.fx (ptrs.set (i - 1) last) (ci - 1) c := by
        intro c hc x y hx hy
        rw [List.getElem?_set_ne hchild.lt.ne] at hx
        rw [List.getElem?_set_ne hc.lt.ne] at hy
        exact hmin c hc x y hx hy
      simp only [hb]
      by_cases hle : last.fx ≤ ptrs[ci - 1].fx
      · rw [if_pos hle]
        refine ⟨h.finish fun c hc a b ha hb' => ?_, .refl _⟩
        cases hself.symm.trans ha
        exact hle.trans (hminset c hc _ b hbset hb')
      · rw [if_neg hle]
        have hset : ((ptrs.set (i - 1) last).set (ci - 1) last).set (i - 1) ptrs[ci - 1] =
            (ptrs.set (i - 1) ptrs[ci - 1]).set (ci - 1) last := by
          rw [List.set_comm _ _ hchild.lt.ne', List.set_set]
        have hdown := h.swap (Nat.zero_le _) hchild hself hbset (not_le.mp hle) hminset
        have hperm := swap_perm hself hbset
        rw [hset] at hdown hperm
        obtain ⟨hord, hp⟩ := @ih (ptrs.set (i - 1) ptrs[ci - 1]) ci
          (by have := hchild.lt; omega) (by simpa using hci)
          (by have := hchild.lt; simp; omega) hdown
        exact ⟨hord, hp.trans hperm⟩

theorem deleteMin_nil (hnil : h.elemPtrList = []) : h.deleteMin = none := by
  simp [deleteMin, hnil]

theorem deleteMin_spec (hwf : h.WF) (hne : h.elemPtrList ≠ []) :
    ∃ min h', h.deleteMin = some (min, h') ∧ h'.WF ∧ h'.capacity = h.capacity ∧
      h'.elemSize = h.elemSize ∧ h.elemPtrList.Perm (min :: h'.elemPtrList) ∧
      ∀ qe ∈ h'.elemPtrList, min.fx ≤ qe.fx := by
  obtain ⟨capacity, elemSize, ptrs⟩ := h
  cases ptrs with
  | nil => exact absurd rfl hne
  | cons min rest =>
    have hroot := hwf.ordered.root_le (a := min) rfl
    have hlast := List.getLast?_eq_some_getLast (List.cons_ne_nil min rest)
    generalize (min :: rest).getLast _ = last at hlast
    obtain ⟨ptrs', hptrs'⟩ : ∃ ptrs', deleteLoop (rest.length + 1 + 1) (min :: rest).dropLast 1 last =
        ptrs' := ⟨_, rfl⟩
    have hrun : deleteMin ⟨capacity, elemSize, min :: rest⟩ =
        some (min, ⟨capacity, elemSize, ptrs'⟩) := by
      rw [← hptrs']
      simp [deleteMin, size, hlast]
    have hsplit : (min :: rest).dropLast ++ [last] = min :: rest :=
      List.dropLast_append_getLast? last hlast
    have hspec : OrderedFrom QueueElement.fx ptrs' 0 ∧ (min :: ptrs').Perm (min :: rest) := by
      cases rest with
      | nil =>
        have hnil : ptrs' = [] := by
          rw [← hptrs']
          rfl
        rw [hnil]
        exact ⟨orderedFrom_of_leaves (by simp), .refl _⟩
      | cons b rest =>
        have hord : OrderedFrom QueueElement.fx (min :: b :: rest).dropLast 0 := by
          have hall : OrderedFrom QueueElement.fx ((min :: b :: rest).dropLast ++ [last]) 0 := by
            rw [hsplit]
            exact hwf.ordered
          exact hall.of_append
        obtain ⟨hord', hperm⟩ := @deleteLoop_spec last (min :: b :: rest).dropLast 1
          ((b :: rest).length + 1 + 1) Nat.one_pos (by simp) (by simp) (hord.set last)
        rw [hptrs'] at hord' hperm
        refine ⟨hord', ?_⟩
        have hcons : (min :: b :: rest).dropLast = min :: (b :: rest).dropLast := rfl
        rw [hcons] at hperm hsplit
        rw [← hsplit, List.cons_append]
        exact .cons min (hperm.trans (List.perm_append_singleton _ _).symm)
    have hlen := hspec.2.length_eq
    refine ⟨min, _, hrun, ⟨hspec.1, ?_, hwf.elemSize_le⟩, rfl, rfl, hspec.2.symm, ?_⟩
    · have hsize := hwf.size_le
      simp only [size, List.length_cons] at hsize hlen ⊢
      omega
    · exact fun qe hqe => hroot qe (hspec.2.mem_iff.mp (List.mem_cons_of_mem _ hqe))

end Heap

end TextMining.LibCrf
