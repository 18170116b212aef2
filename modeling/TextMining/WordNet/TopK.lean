import TextMining.Lib.MinHeap
import TextMining.WordNet.TermsProcessor
import Mathlib.Data.List.Induction

/-!
# The top-K selections

`heapify_r` sinks an item and `build_min_heap` orders the whole buffer, so a
loop of pushes keeps the items with the largest counts. The selections of
`FiltIndex` and `GetHotTerm` are such loops.
-/

namespace TextMining.WordNet

open MinHeap

namespace Heap

def key (s : SortItem) : Int := s.sortInt.toInt

variable {input : List SortItem} {len i j : Nat}

theorem getElem?_item (h : i < input.length) : input[i]? = some (item input i) := by
  rw [item, List.getElem?_eq_getElem h, Option.getD_some]

theorem eq_item {a : SortItem} (h : input[i]? = some a) : a = item input i := by
  rw [item, h, Option.getD_some]

-- ---------------------------------------------------------------------------
-- `heapify_r`
-- ---------------------------------------------------------------------------

theorem minChild_eq (hi : i < len) :
    minChild input len i = least (fun p => key (item input p)) len i := by
  have hlt : ∀ p q, (item input p).sortInt < (item input q).sortInt ↔
      key (item input p) < key (item input q) := fun p q => Int32.lt_iff_toInt_lt
  have hl : 2 * i + 1 ≤ len - 1 ↔ 2 * i + 1 < len := by omega
  have hr : 2 * i + 2 ≤ len - 1 ↔ 2 * i + 2 < len := by omega
  simp only [minChild, least, hlt, hl, hr]

theorem minChild_spec (hlen : input.length = len) (hi : i < len) :
    (minChild input len i = i ∧ ∀ c, IsChild c i → InOrder key input i c) ∨
    (IsChild (minChild input len i) i ∧ minChild input len i < len ∧
      key (item input (minChild input len i)) < key (item input i) ∧
      ∀ c, IsChild c i → InOrder key input (minChild input len i) c) := by
  have hin : ∀ p c, (c < len → key (item input p) ≤ key (item input c)) → InOrder key input p c := by
    intro p c h a b ha hb
    obtain ⟨hc, -⟩ := List.getElem?_eq_some_iff.mp hb
    rw [eq_item ha, eq_item hb]
    exact h (hlen ▸ hc)
  rw [minChild_eq hi]
  rcases least_spec (fun p => key (item input p)) len i with ⟨heq, hle⟩ | ⟨hc, hclt, hlt, hle⟩
  · exact .inl ⟨heq, fun c hc => hin i c (hle c hc)⟩
  · exact .inr ⟨hc, hclt, hlt, fun c hc => hin _ c (hle c hc)⟩

theorem heapifyLoop_spec {fuel : Nat} (hlen : input.length = len) (hi : i < len) (hj : j ≤ i)
    (hfuel : len ≤ fuel + i) (h : Sinking key input j i) :
    OrderedFrom key (heapifyLoop fuel input len i) j ∧
      (heapifyLoop fuel input len i).Perm input := by
  induction fuel generalizing input i with
  | zero => omega
  | succ fuel ih =>
    rw [heapifyLoop]
    rcases minChild_spec hlen hi with ⟨hmin, hstop⟩ | ⟨hc, hclt, hlt, hmin⟩
    · rw [if_neg fun hne => hne.1 hmin]
      exact ⟨h.finish hstop, .refl _⟩
    · rw [if_pos ⟨hc.lt.ne', by omega⟩]
      generalize minChild input len i = c at hc hclt hlt hmin
      have ha := getElem?_item (hlen.symm ▸ hi)
      have hb := getElem?_item (hlen.symm ▸ hclt)
      have hperm := swap_perm ha hb
      obtain ⟨hord, hp⟩ := ih (hperm.length_eq.trans hlen) hclt (hj.trans hc.lt.le)
        (by have := hc.lt; omega) (h.swap hj hc ha hb hlt hmin)
      exact ⟨hord, hp.trans hperm⟩

theorem heapifyR_spec (hlen : input.length = len) (hi : i < len) (hj : j ≤ i)
    (h : Sinking key input j i) :
    OrderedFrom key (heapifyR input len i) j ∧ (heapifyR input len i).Perm input :=
  heapifyLoop_spec hlen hi hj (Nat.le_add_right len i) h

@[simp] theorem length_heapifyLoop (fuel : Nat) (input : List SortItem) (len i : Nat) :
    (heapifyLoop fuel input len i).length = input.length := by
  induction fuel generalizing input i with
  | zero => rfl
  | succ fuel ih =>
    rw [heapifyLoop]
    split
    · rw [ih, List.length_set, List.length_set]
    · rfl

@[simp] theorem length_heapifyR (input : List SortItem) (len i : Nat) :
    (heapifyR input len i).length = input.length := length_heapifyLoop len input len i

-- ---------------------------------------------------------------------------
-- `build_min_heap`
-- ---------------------------------------------------------------------------

theorem heapifyFrom_spec {m : Nat} (hlen : input.length = len) (hm : m ≤ len)
    (h : OrderedFrom key input m) :
    OrderedFrom key ((List.range m).reverse.foldl (fun input i => heapifyR input len i) input) 0 ∧
      ((List.range m).reverse.foldl (fun input i => heapifyR input len i) input).Perm input := by
  induction m generalizing input with
  | zero => exact ⟨h, .refl _⟩
  | succ m ih =>
    rw [List.range_succ, List.reverse_append, List.reverse_singleton, List.singleton_append,
      List.foldl_cons]
    obtain ⟨hord, hp⟩ := heapifyR_spec hlen (by omega) (le_refl m) h.sinking
    obtain ⟨hord', hp'⟩ := ih (hp.length_eq.trans hlen) (by omega) hord
    exact ⟨hord', hp'.trans hp⟩

theorem buildMinHeap_spec (hlen : input.length = len) (hpos : 1 ≤ len) :
    OrderedFrom key (buildMinHeap input len) 0 ∧ (buildMinHeap input len).Perm input :=
  heapifyFrom_spec hlen (by omega) (orderedFrom_of_leaves (by omega))

@[simp] theorem length_buildMinHeap (input : List SortItem) (len : Nat) :
    (buildMinHeap input len).length = input.length := by
  rw [buildMinHeap]
  generalize (List.range ((len - 1) / 2 + 1)).reverse = positions
  induction positions generalizing input with
  | nil => rfl
  | cons i positions ih => rw [List.foldl_cons, ih, length_heapifyR]

-- ---------------------------------------------------------------------------
-- A further item
-- ---------------------------------------------------------------------------

theorem replaceRoot_spec {kept seen : List SortItem} {K : Nat} (y : SortItem) (hpos : 1 ≤ K)
    (hlen : kept.length = K) (hord : OrderedFrom key kept 0) (hsel : Selects key kept seen) :
    OrderedFrom key (if key (item kept 0) < key y then heapifyR (kept.set 0 y) K 0 else kept) 0 ∧
      Selects key (if key (item kept 0) < key y then heapifyR (kept.set 0 y) K 0 else kept)
        (seen ++ [y]) ∧
      (if key (item kept 0) < key y then heapifyR (kept.set 0 y) K 0 else kept).length = K := by
  cases kept with
  | nil => exact absurd hlen (by simp; omega)
  | cons r rest =>
    have hroot : ∀ z ∈ r :: rest, key r ≤ key z := hord.root_le rfl
    by_cases hgt : key r < key y
    · have hlt : key (item (r :: rest) 0) < key y := hgt
      have hlen' : ((r :: rest).set 0 y).length = K := hlen
      obtain ⟨hord', hp⟩ := heapifyR_spec hlen' hpos (le_refl 0) (hord.set y)
      rw [if_pos hlt]
      refine ⟨hord', ?_, hp.length_eq.trans hlen⟩
      exact (hsel.replace (fun z hz => hroot z (by simp [hz])) hgt).perm hp
    · have hle : ¬ key (item (r :: rest) 0) < key y := hgt
      rw [if_neg hle]
      exact ⟨hord, hsel.skip fun z hz => (not_lt.mp hgt).trans (hroot z hz), hlen⟩

end Heap

-- ---------------------------------------------------------------------------
-- A loop of pushes
-- ---------------------------------------------------------------------------

open Heap State

section
variable {α : Type} (entry : Nat → α → UInt32 × UInt32) (K : Nat)

def sortItems (xs : List α) : List SortItem :=
  xs.zipIdx.map fun (x, i) => ⟨(entry i x).1.toInt32, (entry i x).2.toInt32⟩

def pushAll (xs : List α) (buf : List SortItem) : List SortItem :=
  xs.zipIdx.foldl (fun buf (x, i) => filtPush (entry i x).1 K i (entry i x).2 buf) buf

theorem sortItems_concat (xs : List α) (x : α) :
    sortItems entry (xs ++ [x]) = sortItems entry xs ++
      [⟨(entry xs.length x).1.toInt32, (entry xs.length x).2.toInt32⟩] := by
  rw [sortItems, List.zipIdx_append, List.map_append, Nat.zero_add]
  rfl

theorem pushAll_concat (xs : List α) (x : α) (buf : List SortItem) :
    pushAll entry K (xs ++ [x]) buf = filtPush (entry xs.length x).1 K xs.length
      (entry xs.length x).2 (pushAll entry K xs buf) := by
  rw [pushAll, List.zipIdx_append, List.foldl_append, Nat.zero_add]
  rfl

@[simp] theorem length_sortItems (xs : List α) : (sortItems entry xs).length = xs.length := by
  rw [sortItems, List.length_map, List.length_zipIdx]

variable {entry K} {xs : List α} {buf : List SortItem}

theorem pushAll_of_lt (hbuf : buf.length = K) (h : xs.length < K) :
    pushAll entry K xs buf = sortItems entry xs ++ buf.drop xs.length := by
  induction xs using List.reverseRecOn with
  | nil => rfl
  | append_singleton xs x ih =>
    rw [List.length_append, List.length_singleton] at h
    rw [pushAll_concat, ih (by omega), sortItems_concat, filtPush, if_pos (by omega),
      if_neg (by omega), List.length_append, List.length_singleton]
    have hdrop : buf.drop xs.length = buf[xs.length] :: buf.drop (xs.length + 1) :=
      List.drop_eq_getElem_cons (by omega)
    rw [List.set_append_right _ _ (by rw [length_sortItems]), length_sortItems, Nat.sub_self, hdrop,
      List.set_cons_zero, List.append_assoc, List.singleton_append]

theorem pushAll_of_eq (hpos : 1 ≤ K) (hbuf : buf.length = K) (h : xs.length = K) :
    pushAll entry K xs buf = buildMinHeap (sortItems entry xs) K := by
  cases xs using List.reverseRecOn with
  | nil => exact absurd h (by simp; omega)
  | append_singleton xs x =>
    rw [List.length_append, List.length_singleton] at h
    have hdrop : buf.drop xs.length = [buf[xs.length]] := by
      rw [List.drop_eq_getElem_cons (by omega), List.drop_of_length_le (by omega)]
    rw [pushAll_concat, pushAll_of_lt hbuf (by omega), sortItems_concat, filtPush,
      if_pos (by omega), if_pos (by omega), hdrop,
      List.set_append_right _ _ (by rw [length_sortItems]), length_sortItems, Nat.sub_self,
      List.set_cons_zero]

/-- From the `K`-th element on, nothing is left of the buffer at the start. -/
theorem pushAll_congr (hpos : 1 ≤ K) {buf' : List SortItem} (hbuf : buf.length = K)
    (hbuf' : buf'.length = K) (h : K ≤ xs.length) :
    pushAll entry K xs buf = pushAll entry K xs buf' := by
  induction xs using List.reverseRecOn with
  | nil => exact absurd h (by simp; omega)
  | append_singleton xs x ih =>
    by_cases hK : (xs ++ [x]).length = K
    · rw [pushAll_of_eq hpos hbuf hK, pushAll_of_eq hpos hbuf' hK]
    · rw [List.length_append, List.length_singleton] at h hK
      rw [pushAll_concat, pushAll_concat, ih (by omega)]

@[simp] theorem length_filtPush (count : UInt32) (K i : Nat) (hash : UInt32)
    (buf : List SortItem) : (filtPush count K i hash buf).length = buf.length := by
  rw [filtPush]
  split
  · simp only
    split
    · rw [length_buildMinHeap, List.length_set]
    · rw [List.length_set]
  · split
    · rw [length_heapifyR, List.length_set]
    · rfl

@[simp] theorem length_pushAll : (pushAll entry K xs buf).length = buf.length := by
  induction xs using List.reverseRecOn with
  | nil => rfl
  | append_singleton xs x ih => rw [pushAll_concat, length_filtPush, ih]

theorem pushAll_pushAll (hpos : 1 ≤ K) (hbuf : buf.length = K) :
    pushAll entry K xs (pushAll entry K xs buf) = pushAll entry K xs buf := by
  by_cases h : xs.length < K
  · have hdrop : (sortItems entry xs ++ buf.drop xs.length).drop xs.length =
        buf.drop xs.length := by
      rw [List.drop_append_of_le_length (length_sortItems entry xs).ge,
        List.drop_of_length_le (length_sortItems entry xs).le, List.nil_append]
    rw [pushAll_of_lt (length_pushAll.trans hbuf) h, pushAll_of_lt hbuf h, hdrop]
  · exact pushAll_congr hpos (length_pushAll.trans hbuf) hbuf (not_lt.mp h)

theorem toNat_toUInt32 {n : Int32} (h : 0 ≤ n.toInt) : (n.toUInt32.toNat : Int) = n.toInt := by
  have hcond : n.toInt = _ := BitVec.toInt_eq_toNat_cond n.toBitVec
  have hnat : n.toUInt32.toNat = n.toBitVec.toNat := rfl
  have hlt := n.toBitVec.isLt
  rw [hnat]
  split at hcond <;> omega

theorem toInt_toInt32 {c : UInt32} (h : c.toNat < 2 ^ 31) : c.toInt32.toInt = (c.toNat : Int) := by
  have hcond : c.toInt32.toInt = _ := BitVec.toInt_eq_toNat_cond c.toInt32.toBitVec
  have hnat : c.toInt32.toBitVec.toNat = c.toNat := rfl
  split at hcond <;> omega

theorem toUInt32_lt_iff {c : UInt32} {n : Int32} (hc : 0 ≤ c.toInt32.toInt) (hn : 0 ≤ n.toInt) :
    n.toUInt32 < c ↔ n.toInt < c.toInt32.toInt := by
  have hcn := toNat_toUInt32 hc
  rw [UInt32.toUInt32_toInt32] at hcn
  rw [UInt32.lt_iff_toNat_lt, ← toNat_toUInt32 hn, ← hcn, Int.ofNat_lt]

/-- From the `K`-th element on, the buffer is a heap of the largest items. -/
theorem selects_pushAll (hpos : 1 ≤ K) (hbuf : buf.length = K) (h : K ≤ xs.length)
    (hcount : ∀ s ∈ sortItems entry xs, 0 ≤ key s) :
    OrderedFrom key (pushAll entry K xs buf) 0 ∧
      Selects key (pushAll entry K xs buf) (sortItems entry xs) ∧
      (pushAll entry K xs buf).length = K := by
  induction xs using List.reverseRecOn with
  | nil => exact absurd h (by simp; omega)
  | append_singleton xs x ih =>
    by_cases hK : K = (xs ++ [x]).length
    · have hlen := length_sortItems entry (xs ++ [x])
      obtain ⟨hord, hp⟩ := buildMinHeap_spec (hlen.trans hK.symm) hpos
      rw [pushAll_of_eq hpos hbuf hK.symm]
      exact ⟨hord, selects_of_perm hp, hp.length_eq.trans (hlen.trans hK.symm)⟩
    · rw [List.length_append, List.length_singleton] at h hK
      rw [sortItems_concat] at hcount ⊢
      obtain ⟨hord, hsel, hlen⟩ := ih (by omega) fun s hs =>
        hcount s (List.mem_append_left _ hs)
      rw [pushAll_concat, filtPush, if_neg (by omega)]
      generalize pushAll entry K xs buf = kept at hord hsel hlen
      generalize hy : (⟨(entry xs.length x).1.toInt32, (entry xs.length x).2.toInt32⟩ : SortItem) = y
        at hcount
      have hr : 0 ≤ key (item kept 0) := by
        obtain ⟨lost, hseen, -⟩ := hsel
        have hmem : item kept 0 ∈ kept := List.mem_of_getElem? (getElem?_item (by omega))
        exact hcount _ (List.mem_append_left _ (hseen.mem_iff.mpr (List.mem_append_left _ hmem)))
      have hcy : 0 ≤ (entry xs.length x).1.toInt32.toInt := by
        have hy0 := hcount y (by simp)
        rwa [← hy] at hy0
      have hlt : (entry xs.length x).1 > (item kept 0).sortInt.toUInt32 ↔
          key (item kept 0) < key y := by
        rw [← hy]
        exact toUInt32_lt_iff hcy hr
      have hstep := replaceRoot_spec y hpos hlen hord hsel
      simp only [hlt]
      exact hstep

end

end TextMining.WordNet
