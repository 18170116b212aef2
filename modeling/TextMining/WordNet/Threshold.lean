import TextMining.WordNet.TopK
import Mathlib.Algebra.Group.Int.Defs

/-!
# The first item of the heap

The buffer holds a count from `2 ^ 31` on as a negative number, so it stands
below all others there, while a push compares counts without sign. Once one
is in the buffer, the pushes only exchange such counts. `place` says which of
the counts, from the largest, ends up as the first item.
-/

namespace TextMining.WordNet

open MinHeap Heap State

/-- The buffer holds the count as a negative number. -/
def large (count : UInt32) : Bool := 2 ^ 31 ≤ count.toNat

def place (K : Nat) (counts : List UInt32) : Nat :=
  if counts.any large then max 1 ((counts.take K).countP large) else K

theorem place_le {K : Nat} (hpos : 1 ≤ K) (counts : List UInt32) : place K counts ≤ K := by
  rw [place]
  split
  · exact max_le hpos (List.countP_le_length.trans (List.length_take_le K counts))
  · exact le_refl K

theorem place_of_small {counts : List UInt32} (h : ∀ c ∈ counts, c.toNat < 2 ^ 31) (K : Nat) :
    place K counts = K := by
  refine if_neg fun hany => ?_
  obtain ⟨c, hc, hlarge⟩ := List.any_eq_true.mp hany
  have := h c hc
  rw [large, decide_eq_true_eq] at hlarge
  omega

/-- The count that an item was made of. -/
def itemCount (s : SortItem) : Nat := s.sortInt.toUInt32.toNat

def negative (s : SortItem) : Bool := s.sortInt < 0

theorem itemCount_eq (s : SortItem) :
    (negative s = true ∧ key s < 0 ∧ (itemCount s : Int) = key s + 2 ^ 32) ∨
      (negative s = false ∧ 0 ≤ key s ∧ (itemCount s : Int) = key s) := by
  have hcond : key s = _ := BitVec.toInt_eq_toNat_cond s.sortInt.toBitVec
  have hnat : itemCount s = s.sortInt.toBitVec.toNat := rfl
  have hlt := s.sortInt.toBitVec.isLt
  have hneg : negative s = true ↔ key s < 0 := by
    rw [negative, decide_eq_true_eq, Int32.lt_iff_toInt_lt]
    rfl
  by_cases h : key s < 0
  · refine .inl ⟨hneg.mpr h, h, ?_⟩
    split at hcond <;> omega
  · refine .inr ⟨by rw [← Bool.not_eq_true, hneg]; exact h, by omega, ?_⟩
    split at hcond <;> omega

theorem key_bounds (s : SortItem) : -2 ^ 31 ≤ key s ∧ key s < 2 ^ 31 :=
  ⟨Int32.le_toInt s.sortInt, Int32.toInt_lt s.sortInt⟩

theorem negative_of_key_le {a b : SortItem} (h : key a ≤ key b) (hb : negative b = true) :
    negative a = true := by
  rcases itemCount_eq a with ⟨ha, -, -⟩ | ⟨-, hak, -⟩
  · exact ha
  · rcases itemCount_eq b with ⟨-, hbk, -⟩ | ⟨hb', -, -⟩
    · omega
    · exact nomatch hb.symm.trans hb'

theorem itemCount_le_of_key_le {a b : SortItem} (h : key a ≤ key b) (hb : negative b = true) :
    itemCount a ≤ itemCount b := by
  have ha := negative_of_key_le h hb
  rcases itemCount_eq a with ⟨-, -, hac⟩ | ⟨ha', -, -⟩
  · rcases itemCount_eq b with ⟨-, -, hbc⟩ | ⟨hb', -, -⟩
    · omega
    · exact nomatch hb.symm.trans hb'
  · exact nomatch ha.symm.trans ha'

theorem itemCount_lt_of_negative {a b : SortItem} (ha : negative a = false)
    (hb : negative b = true) : itemCount a < itemCount b := by
  have hab := key_bounds a
  have hbb := key_bounds b
  rcases itemCount_eq a with ⟨ha', -, -⟩ | ⟨-, -, hac⟩
  · exact nomatch ha.symm.trans ha'
  · rcases itemCount_eq b with ⟨-, -, hbc⟩ | ⟨hb', -, -⟩
    · omega
    · exact nomatch hb.symm.trans hb'

theorem negative_of_itemCount_le {a b : SortItem} (h : itemCount a ≤ itemCount b)
    (ha : negative a = true) : negative b = true := by
  by_contra hb
  have := itemCount_lt_of_negative (Bool.not_eq_true _ ▸ hb) ha
  omega

theorem itemCount_toInt32 (c : UInt32) (a : Int32) : itemCount ⟨c.toInt32, a⟩ = c.toNat := by
  rw [itemCount, UInt32.toUInt32_toInt32]

theorem large_eq_negative (s : SortItem) : large s.sortInt.toUInt32 = negative s := by
  have hb := key_bounds s
  have hcount : itemCount s = s.sortInt.toUInt32.toNat := rfl
  rw [large, ← hcount]
  rcases itemCount_eq s with ⟨hn, -, he⟩ | ⟨hn, -, he⟩
  · rw [hn, decide_eq_true_eq]
    omega
  · rw [hn, decide_eq_false_iff_not]
    omega

-- ---------------------------------------------------------------------------
-- A loop of pushes over any counts
-- ---------------------------------------------------------------------------

def negatives (K : Nat) (items : List SortItem) : Nat :=
  if items.any negative then max 1 ((items.take K).countP negative) else 0

theorem any_of_negatives {K n : Nat} {items : List SortItem} (h : n + 1 = negatives K items) :
    items.any negative = true := by
  by_contra hnone
  rw [negatives, if_neg hnone] at h
  cases h

theorem none_of_negatives {K : Nat} {items : List SortItem} (h : 0 = negatives K items) :
    items.any negative = false := by
  by_contra hany
  rw [negatives, if_pos (by simpa using hany)] at h
  omega

theorem negatives_concat {K : Nat} {items : List SortItem} {y : SortItem} (hK : K ≤ items.length)
    (hy : negative y = true → items.any negative = true) :
    negatives K (items ++ [y]) = negatives K items := by
  have hany : (items ++ [y]).any negative = items.any negative := by
    rw [List.any_append, List.any_cons, List.any_nil, Bool.or_false]
    cases h : negative y with
    | false => rw [Bool.or_false]
    | true => rw [hy h, Bool.true_or]
  rw [negatives, negatives, hany, List.take_append_of_le_length hK]

structure Pushed (K : Nat) (items buf : List SortItem) : Prop where
  ordered : OrderedFrom key buf 0
  length : buf.length = K
  selects : Selects itemCount (buf.filter negative) items
  number : (buf.filter negative).length = negatives K items

section
variable {K : Nat} {items buf : List SortItem} {y : SortItem}

theorem pushed_build (hpos : 1 ≤ K) (h : items.length = K) :
    Pushed K items (buildMinHeap items K) := by
  obtain ⟨hord, hp⟩ := buildMinHeap_spec h hpos
  refine ⟨hord, hp.length_eq.trans h, ?_, ?_⟩
  · refine ⟨items.filter fun s => !negative s, ?_, fun x hx y hy => ?_⟩
    · have hparts := List.filter_append_perm negative items
      exact hparts.symm.trans ((hp.filter negative).symm.append_right _)
    · have hx := (List.mem_filter.mp hx).2
      have hy := (List.mem_filter.mp hy).2
      exact (itemCount_lt_of_negative (by simpa using hy) hx).le
  · rw [(hp.filter negative).length_eq, ← List.countP_eq_length_filter, negatives,
      List.take_of_length_le h.le]
    split
    · rename_i hany
      have hcount : 0 < items.countP negative := List.countP_pos_iff.mpr (List.any_eq_true.mp hany)
      omega
    · rename_i hany
      exact List.countP_eq_zero.mpr fun s hs hn => hany (List.any_eq_true.mpr ⟨s, hs, hn⟩)

theorem Pushed.skip (h : Pushed K items buf) (hK : K ≤ items.length) (hpos : 1 ≤ K)
    (hle : itemCount y ≤ itemCount (item buf 0)) : Pushed K (items ++ [y]) buf := by
  obtain ⟨hord, hlen, hsel, hnum⟩ := h
  cases buf with
  | nil => exact absurd hlen (by rw [List.length_nil]; omega)
  | cons r rest =>
    have hroot := hord.root_le rfl
    have hle' : itemCount y ≤ itemCount r := hle
    refine ⟨hord, hlen, hsel.skip fun z hz => ?_, ?_⟩
    · obtain ⟨hz, hn⟩ := List.mem_filter.mp hz
      exact hle'.trans (itemCount_le_of_key_le (hroot z hz) hn)
    · rw [negatives_concat hK fun hy => ?_, hnum]
      rw [List.filter_cons_of_pos (negative_of_itemCount_le hle' hy)] at hnum
      exact any_of_negatives hnum

theorem Pushed.replace (h : Pushed K items buf) (hK : K ≤ items.length) (hpos : 1 ≤ K)
    (hlt : itemCount (item buf 0) < itemCount y) :
    Pushed K (items ++ [y]) (heapifyR (buf.set 0 y) K 0) := by
  obtain ⟨hord, hlen, hsel, hnum⟩ := h
  obtain ⟨hord', hp⟩ := heapifyR_spec ((List.length_set ..).trans hlen) hpos (le_refl 0) (hord.set y)
  have hlen' := hp.length_eq.trans ((List.length_set ..).trans hlen)
  cases buf with
  | nil => exact absurd hlen (by rw [List.length_nil]; omega)
  | cons r rest =>
    have hroot := hord.root_le rfl
    have hlt' : itemCount r < itemCount y := hlt
    rw [List.set_cons_zero] at hp hord' hlen' ⊢
    have hfilter := hp.filter negative
    suffices hboth : Selects itemCount ((heapifyR (y :: rest) K 0).filter negative) (items ++ [y]) ∧
        ((heapifyR (y :: rest) K 0).filter negative).length = negatives K (items ++ [y]) from
      ⟨hord', hlen', hboth.1, hboth.2⟩
    cases hr : negative r with
    | true =>
      -- one negative number is exchanged for another
      have hy := negative_of_itemCount_le hlt'.le hr
      rw [List.filter_cons_of_pos hr] at hsel hnum
      rw [List.filter_cons_of_pos hy] at hfilter
      refine ⟨?_, ?_⟩
      · refine (hsel.replace (fun z hz => ?_) hlt').perm hfilter
        obtain ⟨hz, hn⟩ := List.mem_filter.mp hz
        exact itemCount_le_of_key_le (hroot z (List.mem_cons_of_mem r hz)) hn
      · rw [negatives_concat hK fun _ => any_of_negatives hnum, ← hnum]
        exact hfilter.length_eq
    | false =>
      have hrest : rest.filter negative = [] := by
        refine List.filter_eq_nil_iff.mpr fun z hz hn => ?_
        have hrn := negative_of_key_le (hroot z (List.mem_cons_of_mem r hz)) hn
        exact nomatch hr.symm.trans hrn
      rw [List.filter_cons_of_neg (by simp [hr]), hrest] at hsel hnum
      have hnone := none_of_negatives hnum
      cases hy : negative y with
      | true =>
        -- the first negative number
        rw [List.filter_cons_of_pos hy, hrest] at hfilter
        refine ⟨?_, ?_⟩
        · refine Selects.perm ⟨items, List.perm_append_singleton y items, fun x hx z hz => ?_⟩ hfilter
          rw [List.mem_singleton.mp hx]
          have hz : negative z = false := by simpa using List.any_eq_false.mp hnone z hz
          exact (itemCount_lt_of_negative hz hy).le
        · have hzero : (items.take K).countP negative = 0 := List.countP_eq_zero.mpr fun z hz =>
            List.any_eq_false.mp hnone z (List.mem_of_mem_take hz)
          have hany : (items ++ [y]).any negative = true :=
            List.any_eq_true.mpr ⟨y, by simp, hy⟩
          rw [hfilter.length_eq, negatives, if_pos hany, List.take_append_of_le_length hK, hzero]
          rfl
      | false =>
        rw [List.filter_cons_of_neg (by simp [hy]), hrest] at hfilter
        have hnil := List.Perm.eq_nil hfilter
        refine ⟨?_, ?_⟩
        · rw [hnil]
          exact hsel.skip fun x hx => nomatch hx
        · rw [negatives_concat hK (fun h => nomatch hy.symm.trans h), ← hnum]
          exact hfilter.length_eq

end

section
variable {α : Type} {entry : Nat → α → UInt32 × UInt32} {K : Nat} {xs : List α}
  {buf : List SortItem}

variable (entry) in
theorem pushed_pushAll (hpos : 1 ≤ K) (hbuf : buf.length = K) (h : K ≤ xs.length) :
    Pushed K (sortItems entry xs) (pushAll entry K xs buf) := by
  induction xs using List.reverseRecOn with
  | nil => exact absurd h (by rw [List.length_nil]; omega)
  | append_singleton xs x ih =>
    by_cases hK : (xs ++ [x]).length = K
    · rw [pushAll_of_eq hpos hbuf hK]
      exact pushed_build hpos ((length_sortItems entry _).trans hK)
    · rw [List.length_append, List.length_singleton] at h hK
      have hK' : K ≤ (sortItems entry xs).length := by rw [length_sortItems]; omega
      have hprev := ih (by omega)
      rw [sortItems_concat, pushAll_concat, filtPush, if_neg (by omega)]
      generalize pushAll entry K xs buf = kept at hprev
      have hcount := itemCount_toInt32 (entry xs.length x).1 (entry xs.length x).2.toInt32
      by_cases hgt : (entry xs.length x).1 > (item kept 0).sortInt.toUInt32
      · rw [if_pos hgt]
        refine hprev.replace hK' hpos ?_
        rw [hcount]
        exact UInt32.lt_iff_toNat_lt.mp hgt
      · rw [if_neg hgt]
        refine hprev.skip hK' hpos ?_
        rw [hcount]
        exact not_lt.mp fun hlt => hgt (UInt32.lt_iff_toNat_lt.mpr hlt)

variable (entry) in
theorem kthLargest_root (hpos : 1 ≤ K) (hbuf : buf.length = K) (h : K ≤ xs.length) :
    kthLargest (place K ((sortItems entry xs).map fun s => s.sortInt.toUInt32))
      ((sortItems entry xs).map itemCount) = some (itemCount (item (pushAll entry K xs buf) 0)) := by
  obtain ⟨hord, hlen, hsel, hnum⟩ := pushed_pushAll entry hpos hbuf h
  have hany : ((sortItems entry xs).map fun s => s.sortInt.toUInt32).any large =
      (sortItems entry xs).any negative := by
    rw [List.any_map]
    exact congrArg _ (funext large_eq_negative)
  rw [place, hany]
  cases hn : (sortItems entry xs).any negative with
  | true =>
    rw [if_pos rfl]
    have hplace : ((((sortItems entry xs).map fun s => s.sortInt.toUInt32).take K).countP large) =
        ((sortItems entry xs).take K).countP negative := by
      rw [← List.map_take, List.countP_map]
      exact List.countP_congr fun s _ => by rw [Function.comp, large_eq_negative]
    rw [negatives, hn, if_pos rfl] at hnum
    rw [hplace, ← hnum]
    generalize pushAll entry K xs buf = kept at hord hlen hsel hnum
    cases kept with
    | nil => exact absurd hlen (by rw [List.length_nil]; omega)
    | cons r rest =>
      have hroot := hord.root_le rfl
      obtain ⟨z, hz⟩ := List.exists_mem_of_length_pos (by omega : 0 < ((r :: rest).filter negative).length)
      obtain ⟨hz, hzn⟩ := List.mem_filter.mp hz
      have hr := negative_of_key_le (hroot z hz) hzn
      rw [List.filter_cons_of_pos hr] at hsel ⊢
      refine hsel.kthLargest (fun z hz => ?_) rfl
      obtain ⟨hz, hn⟩ := List.mem_filter.mp hz
      exact itemCount_le_of_key_le (hroot z (List.mem_cons_of_mem r hz)) hn
  | false =>
    have hkeys : (sortItems entry xs).map key = ((sortItems entry xs).map itemCount).map Nat.cast := by
      rw [List.map_map]
      refine List.map_congr_left fun s hs => ?_
      rcases itemCount_eq s with ⟨hs', -, -⟩ | ⟨-, -, hc⟩
      · exact absurd hs' (List.any_eq_false.mp hn s hs)
      · exact hc.symm
    have hcount : ∀ s ∈ sortItems entry xs, 0 ≤ key s := by
      intro s hs
      rcases itemCount_eq s with ⟨hs', -, -⟩ | ⟨-, hk, -⟩
      · exact absurd hs' (List.any_eq_false.mp hn s hs)
      · exact hk
    obtain ⟨-, hsel, -⟩ := selects_pushAll hpos hbuf h hcount
    rw [if_neg Bool.false_ne_true]
    generalize pushAll entry K xs buf = kept at hord hlen hsel
    cases kept with
    | nil => exact absurd hlen (by rw [List.length_nil]; omega)
    | cons r rest =>
      have hroot := hord.root_le rfl
      have hk := hsel.kthLargest (fun z hz => hroot z (List.mem_cons_of_mem r hz)) hlen
      rw [hkeys, kthLargest_map (fun x y => Int.ofNat_le.mpr)] at hk
      obtain ⟨n, hn', hnr⟩ := Option.map_eq_some_iff.mp hk
      rw [hn', Option.some.injEq, ← Int.ofNat_inj]
      have hr : 0 ≤ key r := by
        obtain ⟨lost, hseen, -⟩ := hsel
        exact hcount r (hseen.mem_iff.mpr (by simp))
      exact hnr.trans (toNat_toUInt32 hr).symm

end

end TextMining.WordNet
