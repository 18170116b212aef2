import Mathlib.Data.List.Sort
import Mathlib.Order.Defs.LinearOrder

/-!
# Binary min heaps in lists

The children of position `i` are `2 * i + 1` and `2 * i + 2`. `OrderedFrom j`
is the heap order at the positions from `j` on, and `Sinking j i` the heap
order but for an item at `i` that may be too large. An algorithm that sinks
items is verified with `Sinking.swap` for a step and `Sinking.finish` for the
end.
-/

namespace TextMining.MinHeap

universe u v w

def IsChild (c p : Nat) : Prop := c = 2 * p + 1 ∨ c = 2 * p + 2

theorem IsChild.lt {c p : Nat} (h : IsChild c p) : p < c := by
  obtain rfl | rfl := h <;> omega

theorem IsChild.unique {c p q : Nat} (hp : IsChild c p) (hq : IsChild c q) : p = q := by
  obtain rfl | rfl := hp <;> obtain hq | hq := hq <;> omega

theorem exists_parent {i : Nat} (h : 0 < i) : ∃ p, p < i ∧ IsChild i p := by
  have hp : i = 2 * ((i - 1) / 2) + 1 ∨ i = 2 * ((i - 1) / 2) + 2 := by omega
  exact ⟨(i - 1) / 2, IsChild.lt hp, hp⟩

section
variable {α : Type u} {κ : Type v} [LinearOrder κ] {key : α → κ} {xs : List α} {i j c : Nat} {a b : α}

def InOrder (key : α → κ) (xs : List α) (p c : Nat) : Prop :=
  ∀ a b, xs[p]? = some a → xs[c]? = some b → key a ≤ key b

def OrderedFrom (key : α → κ) (xs : List α) (j : Nat) : Prop :=
  ∀ p c, j ≤ p → IsChild c p → InOrder key xs p c

structure Sinking (key : α → κ) (xs : List α) (j i : Nat) : Prop where
  except : ∀ p c, j ≤ p → p ≠ i → IsChild c p → InOrder key xs p c
  grand : ∀ q c, j ≤ q → IsChild i q → IsChild c i → InOrder key xs q c

/-- The heap order but for an item that may be too small. -/
structure Rising (key : α → κ) (xs : List α) (i : Nat) : Prop where
  except : ∀ p c, c ≠ i → IsChild c p → InOrder key xs p c
  grand : ∀ p c, IsChild i p → IsChild c i → InOrder key xs p c

-- ---------------------------------------------------------------------------
-- The rules
-- ---------------------------------------------------------------------------

theorem orderedFrom_of_leaves (h : xs.length ≤ 2 * j + 1) : OrderedFrom key xs j := by
  intro p c hp hc a b _ hb
  obtain ⟨hlt, -⟩ := List.getElem?_eq_some_iff.mp hb
  obtain rfl | rfl := hc <;> omega

theorem OrderedFrom.sinking (h : OrderedFrom key xs (i + 1)) : Sinking key xs i i where
  except p c hp hpi hc := h p c (by omega) hc
  grand q c hq hi _ := absurd hi.lt (by omega)

theorem OrderedFrom.set (h : OrderedFrom key xs 0) (y : α) : Sinking key (xs.set 0 y) 0 0 where
  except p c _ hp hc a b ha hb := by
    have hc0 : 0 ≠ c := by have := hc.lt; omega
    rw [List.getElem?_set_ne hp.symm] at ha
    rw [List.getElem?_set_ne hc0] at hb
    exact h p c (Nat.zero_le p) hc a b ha hb
  grand q c _ h0 _ := absurd h0.lt (by omega)

theorem Sinking.swap (h : Sinking key xs j i) (hj : j ≤ i) (hc : IsChild c i)
    (ha : xs[i]? = some a) (hb : xs[c]? = some b) (hlt : key b < key a)
    (hmin : ∀ c', IsChild c' i → InOrder key xs c c') :
    Sinking key ((xs.set c a).set i b) j c := by
  have hic : i ≠ c := hc.lt.ne
  have hi : ((xs.set c a).set i b)[i]? = some b := by
    obtain ⟨hlt, -⟩ := List.getElem?_eq_some_iff.mp ha
    rw [List.getElem?_set_self (by simpa using hlt)]
  have hcc : ((xs.set c a).set i b)[c]? = some a := by
    obtain ⟨hlt, -⟩ := List.getElem?_eq_some_iff.mp hb
    rw [List.getElem?_set_ne hic, List.getElem?_set_self hlt]
  have hother : ∀ k, i ≠ k → c ≠ k → ((xs.set c a).set i b)[k]? = xs[k]? := fun k hik hck => by
    rw [List.getElem?_set_ne hik, List.getElem?_set_ne hck]
  constructor
  · intro p d hp hpc hd x y hx hy
    by_cases hpi : p = i
    · subst hpi
      obtain rfl := Option.some.inj (hi.symm.trans hx)
      by_cases hdc : d = c
      · subst hdc
        obtain rfl := Option.some.inj (hcc.symm.trans hy)
        exact hlt.le
      · rw [hother d hd.lt.ne (Ne.symm hdc)] at hy
        exact hmin d hd b y hb hy
    · rw [hother p (Ne.symm hpi) (Ne.symm hpc)] at hx
      have hdc : c ≠ d := fun he => hpi ((he ▸ hd).unique hc)
      by_cases hdi : i = d
      · subst hdi
        obtain rfl := Option.some.inj (hi.symm.trans hy)
        exact h.grand p c hp hd hc x b hx hb
      · rw [hother d hdi hdc] at hy
        exact h.except p d hp hpi hd x y hx hy
  · intro q d hq hcq hd x y hx hy
    obtain rfl := hc.unique hcq
    obtain rfl := Option.some.inj (hi.symm.trans hx)
    rw [hother d (hc.lt.trans hd.lt).ne hd.lt.ne] at hy
    exact h.except c d (hj.trans hc.lt.le) hic.symm hd b y hb hy

theorem Sinking.finish (h : Sinking key xs j i) (hstop : ∀ c, IsChild c i → InOrder key xs i c) :
    OrderedFrom key xs j := by
  intro p c hp hc
  by_cases hpi : p = i
  · subst hpi
    exact hstop c hc
  · exact h.except p c hp hpi hc

-- ---------------------------------------------------------------------------
-- Items that rise
-- ---------------------------------------------------------------------------

theorem OrderedFrom.append (h : OrderedFrom key xs 0) (y : α) : Rising key (xs ++ [y]) xs.length where
  except p c hcn hc a b ha hb := by
    obtain ⟨hcl, -⟩ := List.getElem?_eq_some_iff.mp hb
    have hlt : c < xs.length := by
      rw [List.length_append, List.length_singleton] at hcl
      exact Nat.lt_of_le_of_ne (Nat.le_of_lt_succ hcl) hcn
    rw [List.getElem?_append_left (hc.lt.trans hlt)] at ha
    rw [List.getElem?_append_left hlt] at hb
    exact h p c (Nat.zero_le p) hc a b ha hb
  grand p c _ hc a b _ hb := by
    obtain ⟨hcl, -⟩ := List.getElem?_eq_some_iff.mp hb
    rw [List.length_append, List.length_singleton] at hcl
    exact absurd hc.lt (Nat.not_lt_of_le (Nat.le_of_lt_succ hcl))

theorem Rising.swap {p : Nat} (h : Rising key xs i) (hp : IsChild i p) (ha : xs[p]? = some a)
    (hb : xs[i]? = some b) (hlt : key b < key a) : Rising key ((xs.set i a).set p b) p := by
  have hpi : p ≠ i := hp.lt.ne
  have hpp : ((xs.set i a).set p b)[p]? = some b := by
    obtain ⟨hlt, -⟩ := List.getElem?_eq_some_iff.mp ha
    rw [List.getElem?_set_self (by simpa using hlt)]
  have hii : ((xs.set i a).set p b)[i]? = some a := by
    obtain ⟨hlt, -⟩ := List.getElem?_eq_some_iff.mp hb
    rw [List.getElem?_set_ne hpi, List.getElem?_set_self hlt]
  have hother : ∀ k, i ≠ k → p ≠ k → ((xs.set i a).set p b)[k]? = xs[k]? := fun k hik hpk => by
    rw [List.getElem?_set_ne hpk, List.getElem?_set_ne hik]
  constructor
  · intro q c hcp hc x y hx hy
    by_cases hqp : q = p
    · subst hqp
      obtain rfl := Option.some.inj (hpp.symm.trans hx)
      by_cases hci : c = i
      · subst hci
        obtain rfl := Option.some.inj (hii.symm.trans hy)
        exact hlt.le
      · rw [hother c (Ne.symm hci) hc.lt.ne] at hy
        exact hlt.le.trans (h.except q c hci hc a y ha hy)
    · have hci : c ≠ i := fun he => hqp ((he ▸ hc).unique hp)
      rw [hother c (Ne.symm hci) (Ne.symm hcp)] at hy
      by_cases hqi : q = i
      · subst hqi
        obtain rfl := Option.some.inj (hii.symm.trans hx)
        exact h.grand p c hp hc a y ha hy
      · rw [hother q (Ne.symm hqi) (Ne.symm hqp)] at hx
        exact h.except q c hci hc x y hx hy
  · intro q c hq hc x y hx hy
    rw [hother q (hq.lt.trans hp.lt).ne' hq.lt.ne'] at hx
    have hqa := h.except q p hpi hq x a hx ha
    by_cases hci : c = i
    · subst hci
      obtain rfl := Option.some.inj (hii.symm.trans hy)
      exact hqa
    · rw [hother c (Ne.symm hci) hc.lt.ne] at hy
      exact hqa.trans (h.except p c hci hc a y ha hy)

theorem Rising.finish (h : Rising key xs i) (hstop : ∀ p, IsChild i p → InOrder key xs p i) :
    OrderedFrom key xs 0 := by
  intro p c _ hc
  by_cases hci : c = i
  · subst hci
    exact hstop p hc
  · exact h.except p c hci hc

/-- The position of the smallest among a position and its children below `n`. -/
def least (value : Nat → κ) (n i : Nat) : Nat :=
  let min := if 2 * i + 1 < n ∧ value (2 * i + 1) < value i then 2 * i + 1 else i
  if 2 * i + 2 < n ∧ value (2 * i + 2) < value min then 2 * i + 2 else min

theorem least_spec (value : Nat → κ) (n i : Nat) :
    (least value n i = i ∧ ∀ c, IsChild c i → c < n → value i ≤ value c) ∨
    (IsChild (least value n i) i ∧ least value n i < n ∧ value (least value n i) < value i ∧
      ∀ c, IsChild c i → c < n → value (least value n i) ≤ value c) := by
  rw [least]
  by_cases hl : 2 * i + 1 < n ∧ value (2 * i + 1) < value i
  · rw [if_pos hl]
    by_cases hr : 2 * i + 2 < n ∧ value (2 * i + 2) < value (2 * i + 1)
    · rw [if_pos hr]
      refine .inr ⟨.inr rfl, hr.1, hr.2.trans hl.2, ?_⟩
      rintro c (rfl | rfl) _
      · exact hr.2.le
      · exact le_refl _
    · rw [if_neg hr]
      refine .inr ⟨.inl rfl, hl.1, hl.2, ?_⟩
      rintro c (rfl | rfl) hc
      · exact le_refl _
      · exact not_lt.mp fun hlt => hr ⟨hc, hlt⟩
  · rw [if_neg hl]
    have hleft : 2 * i + 1 < n → value i ≤ value (2 * i + 1) := fun hc =>
      not_lt.mp fun hlt => hl ⟨hc, hlt⟩
    by_cases hr : 2 * i + 2 < n ∧ value (2 * i + 2) < value i
    · rw [if_pos hr]
      refine .inr ⟨.inr rfl, hr.1, hr.2, ?_⟩
      rintro c (rfl | rfl) hc
      · exact hr.2.le.trans (hleft hc)
      · exact le_refl _
    · rw [if_neg hr]
      refine .inl ⟨rfl, ?_⟩
      rintro c (rfl | rfl) hc
      · exact hleft hc
      · exact not_lt.mp fun hlt => hr ⟨hc, hlt⟩

theorem OrderedFrom.of_append {tail : List α} (h : OrderedFrom key (xs ++ tail) j) :
    OrderedFrom key xs j := by
  intro p c hp hc a b ha hb
  have hget : ∀ {k : Nat} {x : α}, xs[k]? = some x → (xs ++ tail)[k]? = some x := fun hx => by
    obtain ⟨hk, -⟩ := List.getElem?_eq_some_iff.mp hx
    rwa [List.getElem?_append_left hk]
  exact h p c hp hc a b (hget ha) (hget hb)

theorem swap_perm (ha : xs[i]? = some a) (hb : xs[c]? = some b) :
    ((xs.set c a).set i b).Perm xs := by
  obtain ⟨hi, rfl⟩ := List.getElem?_eq_some_iff.mp ha
  obtain ⟨hc, rfl⟩ := List.getElem?_eq_some_iff.mp hb
  exact List.set_set_perm hc hi

theorem OrderedFrom.root_le (h : OrderedFrom key xs 0) (ha : xs[0]? = some a) :
    ∀ x ∈ xs, key a ≤ key x := by
  have hall : ∀ (k : Nat) (x : α), xs[k]? = some x → key a ≤ key x := by
    intro k
    induction k using Nat.strongRecOn with
    | ind k ih =>
      intro x hx
      cases k with
      | zero => rw [Option.some.inj (ha.symm.trans hx)]
      | succ k =>
        obtain ⟨p, hp, hc⟩ := exists_parent k.succ_pos
        obtain ⟨hk, -⟩ := List.getElem?_eq_some_iff.mp hx
        have hpx : xs[p]? = some xs[p] := List.getElem?_eq_getElem (hp.trans hk)
        exact (ih p hp _ hpx).trans (h p _ (Nat.zero_le p) hc _ x hpx hx)
  intro x hx
  obtain ⟨k, hk⟩ := List.mem_iff_getElem?.mp hx
  exact hall k x hk

end

-- ---------------------------------------------------------------------------
-- The largest values
-- ---------------------------------------------------------------------------

section
variable {κ : Type v} [LinearOrder κ] {seen : List κ} {v : κ} {K : Nat}

def descending (values : List κ) : List κ := values.mergeSort fun a b => decide (b ≤ a)

theorem descending_perm (values : List κ) : (descending values).Perm values :=
  List.mergeSort_perm _ _

theorem pairwise_descending (values : List κ) : (descending values).Pairwise (· ≥ ·) := by
  have h : (descending values).Pairwise fun a b => decide (b ≤ a) = true := by
    refine List.pairwise_mergeSort (fun a b c hab hbc => ?_) (fun a b => ?_) values
    · exact decide_eq_true ((of_decide_eq_true hbc).trans (of_decide_eq_true hab))
    · rw [Bool.or_eq_true, decide_eq_true_eq, decide_eq_true_eq]
      exact le_total b a
  exact h.imp fun hab => of_decide_eq_true hab

theorem descending_congr {values values' : List κ} (h : values.Perm values') :
    descending values = descending values' :=
  ((descending_perm values).trans (h.trans (descending_perm values').symm)).eq_of_pairwise
    (fun _ _ _ _ hab hba => le_antisymm hba hab) (pairwise_descending _) (pairwise_descending _)

/-- The `K` largest of the values, the largest first. -/
def largest (K : Nat) (values : List κ) : List κ := (descending values).take K

/-- The `K`-th largest of the values, counted from 1. -/
def kthLargest (K : Nat) (values : List κ) : Option κ := (descending values)[K - 1]?

theorem kthLargest_congr {values values' : List κ} (h : values.Perm values') :
    kthLargest K values = kthLargest K values' := by
  rw [kthLargest, kthLargest, descending_congr h]

theorem countP_lt_of_kthLargest (h : kthLargest K seen = some v) :
    seen.countP (fun x => v < x) ≤ K - 1 := by
  rw [kthLargest] at h
  obtain ⟨hlt, hv⟩ := List.getElem?_eq_some_iff.mp h
  have hcons : (descending seen).drop (K - 1) = v :: (descending seen).drop (K - 1 + 1) := by
    rw [List.drop_eq_getElem_cons hlt, hv]
  have hsorted : (v :: (descending seen).drop (K - 1 + 1)).Pairwise (· ≥ ·) :=
    hcons ▸ (pairwise_descending seen).sublist (List.drop_sublist (K - 1) _)
  have hdrop : ((descending seen).drop (K - 1)).countP (fun x => v < x) = 0 := by
    refine List.countP_eq_zero.mpr fun x hx => ?_
    rw [decide_eq_true_eq, not_lt]
    rcases List.mem_cons.mp (hcons ▸ hx) with rfl | hx
    · exact le_refl _
    · exact List.rel_of_pairwise_cons hsorted hx
  calc seen.countP (fun x => v < x)
      = (descending seen).countP (fun x => v < x) := ((descending_perm seen).countP_eq _).symm
    _ = ((descending seen).take (K - 1)).countP (fun x => v < x) := by
      rw [← List.take_append_drop (K - 1) (descending seen), List.countP_append, hdrop,
        Nat.add_zero, List.take_append_drop]
    _ ≤ K - 1 := List.countP_le_length.trans (List.length_take_le _ _)

/-- At most `K` values reach `x` if and only if the one after the `K` largest,
where there is one, is smaller. -/
theorem countP_le_iff (x : κ) :
    seen.countP (fun y => x ≤ y) ≤ K ↔ ∀ v, kthLargest (K + 1) seen = some v → v < x := by
  have hcount := (descending_perm seen).countP_eq fun y => decide (x ≤ y)
  have hsorted := pairwise_descending seen
  rw [← hcount, kthLargest, Nat.add_sub_cancel]
  generalize descending seen = d at hsorted
  rw [← List.take_append_drop K d, List.countP_append, List.getElem?_append_right (by simp)]
  rw [← List.take_append_drop K d, List.pairwise_append] at hsorted
  obtain ⟨-, hdrop, hcross⟩ := hsorted
  have htake : (d.take K).length ≤ K := List.length_take_le K d
  cases hd : d.drop K with
  | nil => simpa using List.countP_le_length.trans htake
  | cons v rest =>
    have hlen : (d.take K).length = K := by
      have hpos : 0 < (d.drop K).length := by rw [hd]; exact Nat.succ_pos _
      rw [List.length_drop] at hpos
      rw [List.length_take, Nat.min_eq_left (by omega)]
    have hv : (v :: rest)[K - (d.take K).length]? = some v := by rw [hlen, Nat.sub_self]; rfl
    rw [hd] at hdrop hcross
    simp only [hv, Option.some.injEq, forall_eq']
    constructor
    · intro hle
      refine not_le.mp fun hx => ?_
      have hall : (d.take K).countP (fun y => decide (x ≤ y)) = (d.take K).length :=
        List.countP_eq_length.mpr fun y hy =>
          decide_eq_true (hx.trans (hcross y hy v List.mem_cons_self))
      have hpos : 0 < (v :: rest).countP (fun y => decide (x ≤ y)) :=
        List.countP_pos_iff.mpr ⟨v, List.mem_cons_self, decide_eq_true hx⟩
      omega
    · intro hlt
      have hnone : (v :: rest).countP (fun y => decide (x ≤ y)) = 0 := by
        refine List.countP_eq_zero.mpr fun y hy => ?_
        rw [decide_eq_true_eq, not_le]
        rcases List.mem_cons.mp hy with rfl | hy
        · exact hlt
        · exact (List.rel_of_pairwise_cons hdrop hy).trans_lt hlt
      rw [hnone, Nat.add_zero]
      exact List.countP_le_length.trans htake

theorem kthLargest_map {κ' : Type w} [LinearOrder κ'] {f : κ → κ'} (hf : ∀ x y, x ≤ y → f x ≤ f y)
    (K : Nat) (values : List κ) : kthLargest K (values.map f) = (kthLargest K values).map f := by
  have hd : descending (values.map f) = (descending values).map f := by
    refine ((descending_perm _).trans ((descending_perm values).map f).symm).eq_of_pairwise
      (fun a b _ _ hab hba => le_antisymm hba hab) (pairwise_descending _) ?_
    exact List.pairwise_map.mpr ((pairwise_descending values).imp (hf _ _))
  rw [kthLargest, hd, List.getElem?_map]
  rfl

end

-- ---------------------------------------------------------------------------
-- Selections
-- ---------------------------------------------------------------------------

section
variable {α : Type u} {κ : Type v} [LinearOrder κ] {key : α → κ} {seen kept : List α} {x y : α}
  {K : Nat}

/-- `kept` are some of the items seen, with the largest keys. -/
def Selects (key : α → κ) (kept seen : List α) : Prop :=
  ∃ rest, seen.Perm (kept ++ rest) ∧ ∀ x ∈ kept, ∀ y ∈ rest, key y ≤ key x

theorem Selects.perm {kept' : List α} (h : Selects key kept seen) (hp : kept'.Perm kept) :
    Selects key kept' seen := by
  obtain ⟨rest, hseen, hle⟩ := h
  exact ⟨rest, hseen.trans (hp.symm.append_right rest), fun x hx => hle x (hp.mem_iff.mp hx)⟩

theorem selects_of_perm (h : kept.Perm seen) : Selects key kept seen :=
  ⟨[], by simpa using h.symm, by simp⟩

theorem Selects.skip (h : Selects key kept seen) (hy : ∀ x ∈ kept, key y ≤ key x) :
    Selects key kept (seen ++ [y]) := by
  obtain ⟨rest, hseen, hle⟩ := h
  refine ⟨rest ++ [y], ?_, fun x hx z hz => ?_⟩
  · rw [← List.append_assoc]
    exact hseen.append_right [y]
  · rcases List.mem_append.mp hz with hz | hz
    · exact hle x hx z hz
    · rw [List.mem_singleton.mp hz]
      exact hy x hx

theorem Selects.replace (h : Selects key (x :: kept) seen) (hx : ∀ z ∈ kept, key x ≤ key z)
    (hy : key x < key y) : Selects key (y :: kept) (seen ++ [y]) := by
  obtain ⟨rest, hseen, hle⟩ := h
  refine ⟨x :: rest, ?_, fun k hk z hz => ?_⟩
  · have hback : (seen ++ [y]).Perm (y :: (x :: kept ++ rest)) :=
      (hseen.append_right [y]).trans (List.perm_append_singleton y _)
    exact hback.trans (List.perm_middle.symm.cons y)
  · have hxk : key x ≤ key k := by
      rcases List.mem_cons.mp hk with rfl | hk
      · exact hy.le
      · exact hx k hk
    rcases List.mem_cons.mp hz with rfl | hz
    · exact hxk
    · exact (hle x List.mem_cons_self z hz).trans hxk

theorem Selects.descending_append (h : Selects key kept seen) :
    ∃ rest, descending (seen.map key) = descending (kept.map key) ++ rest := by
  obtain ⟨rest, hseen, hle⟩ := h
  refine ⟨descending (rest.map key), ?_⟩
  have hsorted : (descending (kept.map key) ++ descending (rest.map key)).Pairwise (· ≥ ·) := by
    refine List.pairwise_append.mpr ⟨pairwise_descending _, pairwise_descending _, ?_⟩
    intro v hv w hw
    obtain ⟨x, hx, rfl⟩ := List.mem_map.mp ((descending_perm _).mem_iff.mp hv)
    obtain ⟨y, hy, rfl⟩ := List.mem_map.mp ((descending_perm _).mem_iff.mp hw)
    exact hle x hx y hy
  have hmap : (seen.map key).Perm (kept.map key ++ rest.map key) := by
    rw [← List.map_append]
    exact hseen.map key
  have hp : (descending (seen.map key)).Perm
      (descending (kept.map key) ++ descending (rest.map key)) :=
    (descending_perm _).trans (hmap.trans ((descending_perm _).append (descending_perm _)).symm)
  exact hp.eq_of_pairwise (fun a b _ _ hab hba => le_antisymm hba hab) (pairwise_descending _)
    hsorted

theorem Selects.largest (h : Selects key kept seen) (hK : kept.length = K) :
    (kept.map key).Perm (largest K (seen.map key)) := by
  obtain ⟨rest, hd⟩ := h.descending_append
  have hlen : (descending (kept.map key)).length = K := by
    rw [(descending_perm _).length_eq, List.length_map, hK]
  rw [MinHeap.largest, hd, List.take_left' hlen]
  exact (descending_perm _).symm

/-- A smallest of those kept has the last of the largest keys. -/
theorem Selects.kthLargest (h : Selects key (x :: kept) seen) (hx : ∀ z ∈ kept, key x ≤ key z)
    (hK : kept.length + 1 = K) : kthLargest K (seen.map key) = some (key x) := by
  obtain ⟨rest, hd⟩ := h.descending_append
  have hlast : descending ((x :: kept).map key) = descending (kept.map key) ++ [key x] := by
    refine ((descending_perm _).trans ?_).eq_of_pairwise
      (fun a b _ _ hab hba => le_antisymm hba hab) (pairwise_descending _) ?_
    · exact ((descending_perm _).symm.cons (key x)).trans (List.perm_append_singleton _ _).symm
    · refine List.pairwise_append.mpr ⟨pairwise_descending _, List.pairwise_singleton _ _, ?_⟩
      intro v hv w hw
      obtain ⟨z, hz, rfl⟩ := List.mem_map.mp ((descending_perm _).mem_iff.mp hv)
      rw [List.mem_singleton.mp hw]
      exact hx z hz
  have hlen : (descending (kept.map key)).length = K - 1 := by
    rw [(descending_perm _).length_eq, List.length_map, ← hK, Nat.add_sub_cancel]
  rw [MinHeap.kthLargest, hd, hlast, List.append_assoc, List.getElem?_append_right hlen.le, hlen,
    Nat.sub_self]
  rfl

end

end TextMining.MinHeap
