import TextMining.WordNet.Invariant
import TextMining.WordNet.Threshold
import Mathlib.Data.List.Perm.Basic

/-!
# What `FiltIndex` keeps

The first items of the two heaps are the K-th largest counts, so fewer than
`2 * K` related terms exceed one of them and the cap on the kept ones never
binds. `filtIndex_winners` holds for every order in which the maps are walked.
-/

namespace TextMining.WordNet

open MinHeap State

-- ---------------------------------------------------------------------------
-- Sweeps, term by term
-- ---------------------------------------------------------------------------

section
variable (ord : Order) (skip : TermInfo → Bool)
  (keep : TermInfo → List (Σ _ : UInt32, Nat) → Nat → (Σ _ : UInt32, Nat) → Bool)

/-- The term at index `i` after a sweep, and the slots it gives up. -/
def sweptTerm (i : Nat) (t : TermInfo) : TermInfo × List Nat :=
  if skip t then (t, [])
  else
    let r := HashMap.sweep (keep t (ord.walk i t.coocTerm)) (ord.walk i t.coocTerm) t.coocTerm 0 []
    ({ t with coocTerm := r.1, relateTermNum := UInt32.ofNat r.2.1 }, r.2.2)

theorem sweepTerms_eq (i : Nat) (ts : List TermInfo) (free : List Nat) :
    sweepTerms ord skip keep i ts free =
      ((ts.zipIdx i).map (fun e => (sweptTerm ord skip keep e.2 e.1).1),
        free ++ (ts.zipIdx i).flatMap fun e => (sweptTerm ord skip keep e.2 e.1).2) := by
  induction ts generalizing i free with
  | nil => simp only [sweepTerms, List.zipIdx_nil, List.map_nil, List.flatMap_nil, List.append_nil]
  | cons t ts ih =>
    rw [List.zipIdx_cons, List.map_cons, List.flatMap_cons, sweepTerms, sweptTerm]
    cases skip t with
    | true => simp only [if_true, ih, List.nil_append]
    | false =>
      simp only [Bool.false_eq_true, if_false]
      rw [HashMap.sweep_free]
      simp only [ih, List.append_assoc]

theorem sweptTerm_freed (i : Nat) (t : TermInfo) :
    (sweptTerm ord skip keep i t).2.Perm
      ((t.coocTerm.entries.filter fun e => e.1 ∉ (sweptTerm ord skip keep i t).1.coocTerm).map
        Sigma.snd) := by
  rw [sweptTerm]
  cases skip t with
  | true =>
    have hnone : t.coocTerm.entries.filter (fun e => decide (e.1 ∉ t.coocTerm)) = [] := by
      refine List.filter_eq_nil_iff.mpr fun e he => ?_
      have hm : e.1 ∈ t.coocTerm := List.mem_map_of_mem he
      simp [hm]
    simp only [if_true, hnone, List.map_nil]
    exact .refl _
  | false =>
    simp only [Bool.false_eq_true, if_false]
    have hord := ord.perm i t.coocTerm
    obtain ⟨kept, erased, hparts, hkept, -, hfree⟩ := HashMap.sweep_spec
      (keep t (ord.walk i t.coocTerm)) [] (m := t.coocTerm) hord.symm 0 []
    rw [hfree, List.nil_append]
    generalize (HashMap.sweep (keep t (ord.walk i t.coocTerm)) (ord.walk i t.coocTerm) t.coocTerm 0
      []).1 = m at hkept
    rw [List.nil_append] at hkept
    refine List.Perm.map _ ?_
    have hp := hparts.trans hord
    have hnd : ((kept ++ erased).map Sigma.fst).Nodup :=
      (hp.map Sigma.fst).nodup_iff.mpr t.coocTerm.nodupKeys
    have hin : ∀ e : Σ _ : UInt32, Nat, e.1 ∈ m ↔ e.1 ∈ kept.map Sigma.fst := fun e =>
      (hkept.map Sigma.fst).mem_iff
    have hfilter := (hp.filter fun e => decide (e.1 ∉ m)).symm
    rw [List.filter_append] at hfilter
    rw [List.map_append, List.nodup_append] at hnd
    have hk : kept.filter (fun e => decide (e.1 ∉ m)) = [] := by
      refine List.filter_eq_nil_iff.mpr fun e he => ?_
      simp [(hin e).mpr (List.mem_map_of_mem he)]
    have he : erased.filter (fun e => decide (e.1 ∉ m)) = erased := by
      refine List.filter_eq_self.mpr fun e he => decide_eq_true fun hm => ?_
      exact hnd.2.2 e.1 ((hin e).mp hm) e.1 (List.mem_map_of_mem he) rfl
    rw [hk, he, List.nil_append] at hfilter
    exact hfilter.symm

end

-- ---------------------------------------------------------------------------
-- The thresholds
-- ---------------------------------------------------------------------------

theorem counts_sortItems {α : Type} (f g : α → UInt32) (xs : List α) :
    (sortItems (fun _ x => (f x, g x)) xs).map (fun s => s.sortInt.toUInt32) = xs.map f := by
  have hzip : xs.zipIdx.map Prod.fst = xs := List.zipIdx_map_fst 0 xs
  rw [sortItems, List.map_map]
  conv_rhs => rw [← hzip, List.map_map]
  exact List.map_congr_left fun e _ => UInt32.toUInt32_toInt32 _

theorem kthLargest_filtMin (count : Nat → UInt32) {K : Nat} (hpos : 1 ≤ K)
    {order : List (Σ _ : UInt32, Nat)} (hK : K ≤ order.length) :
    kthLargest (place K (order.map fun e => count e.2)) (order.map fun e => (count e.2).toNat) =
      some (filtMin count K order).toNat := by
  have hbuf : (List.replicate K (⟨0, 0⟩ : SortItem)).length = K := List.length_replicate
  have hroot := kthLargest_root (fun _ (e : Σ _ : UInt32, Nat) => (count e.2, e.1)) hpos hbuf hK
  have hcounts := counts_sortItems (fun e : Σ _ : UInt32, Nat => count e.2) (fun e => e.1) order
  have hvalues : (sortItems (fun _ e => (count e.2, e.1)) order).map itemCount =
      order.map fun e => (count e.2).toNat := by
    have h := congrArg (List.map UInt32.toNat) hcounts
    rwa [List.map_map, List.map_map] at h
  rwa [hcounts, hvalues] at hroot

theorem filtMin_eq {count : Nat → UInt32} {K : Nat} (hpos : 1 ≤ K)
    {order : List (Σ _ : UInt32, Nat)} (hK : K ≤ order.length)
    (hsmall : ∀ e ∈ order, (count e.2).toNat < 2 ^ 31) :
    kthLargest K (order.map fun e => (count e.2).toNat) = some (filtMin count K order).toNat := by
  have h := kthLargest_filtMin count hpos hK
  rwa [place_of_small fun c hc => ?_] at h
  obtain ⟨e, he, rfl⟩ := List.mem_map.mp hc
  exact hsmall e he

theorem countP_filtMin_lt (count : Nat → UInt32) {K : Nat} (hpos : 1 ≤ K)
    {order : List (Σ _ : UInt32, Nat)} (hK : K ≤ order.length) :
    order.countP (fun e => decide (count e.2 > filtMin count K order)) ≤ K - 1 := by
  have h := countP_lt_of_kthLargest (kthLargest_filtMin count hpos hK)
  have hplace := place_le hpos (order.map fun e => count e.2)
  rw [List.countP_map] at h
  have hcongr : ∀ e ∈ order, decide (count e.2 > filtMin count K order) = true ↔
      ((fun x => decide ((filtMin count K order).toNat < x)) ∘ fun e : Σ _ : UInt32, Nat =>
        (count e.2).toNat) e = true := by
    intro e _
    rw [Function.comp, decide_eq_true_eq, decide_eq_true_eq]
    exact UInt32.lt_iff_toNat_lt
  rw [List.countP_congr hcongr]
  exact h.trans (Nat.sub_le_sub_right hplace 1)

theorem countP_or_le {α : Type*} (p q : α → Bool) (l : List α) :
    l.countP (fun x => p x || q x) ≤ l.countP p + l.countP q := by
  induction l with
  | nil => simp
  | cons x l ih =>
    simp only [List.countP_cons]
    cases p x <;> cases q x <;> simp <;> omega

-- ---------------------------------------------------------------------------
-- The winners
-- ---------------------------------------------------------------------------

/-- `count` of the slot is larger than the K-th largest `count` among the
related terms. -/
def Exceeds (count : Nat → UInt32) (K : Nat) (t : TermInfo) (slot : Nat) : Prop :=
  ∃ v, kthLargest K (t.coocTerm.values.map fun slot => (count slot).toNat) = some v ∧
    v < (count slot).toNat

def Winner (s : State) (K : Nat) (t : TermInfo) (slot : Nat) : Prop :=
  Exceeds (fun slot => (s.relate slot).numNow) K t slot ∨
    Exceeds (fun slot => (s.relate slot).numHistory) K t slot

/-- The counts of the related terms are positive as an `int`. -/
def SmallCounts (s : State) (t : TermInfo) : Prop :=
  ∀ slot ∈ t.coocTerm.values, (s.relate slot).numNow.toNat < 2 ^ 31 ∧
    (s.relate slot).numHistory.toNat < 2 ^ 31

theorem exceeds_iff {count : Nat → UInt32} {K : Nat} (hpos : 1 ≤ K) {t : TermInfo}
    {order : List (Σ _ : UInt32, Nat)} (hp : order.Perm t.coocTerm.entries)
    (hK : K ≤ order.length) (hsmall : ∀ e ∈ order, (count e.2).toNat < 2 ^ 31) (slot : Nat) :
    Exceeds count K t slot ↔ count slot > filtMin count K order := by
  have hvalues : (t.coocTerm.values.map fun slot => (count slot).toNat).Perm
      (order.map fun e => (count e.2).toNat) := by
    rw [HashMap.values, List.map_map]
    exact hp.symm.map _
  rw [Exceeds, kthLargest_congr hvalues, filtMin_eq hpos hK hsmall, gt_iff_lt,
    UInt32.lt_iff_toNat_lt]
  constructor
  · rintro ⟨v, hv, hlt⟩
    exact Option.some.inj hv ▸ hlt
  · intro hlt
    exact ⟨_, rfl, hlt⟩

/-- The decision of `FiltIndex` about an entry, apart from the cap. -/
def filtKeep (s : State) (K : Nat) (order : List (Σ _ : UInt32, Nat)) (e : Σ _ : UInt32, Nat) :
    Bool :=
  (s.relate e.2).numNow > filtMin (fun slot => (s.relate slot).numNow) K order ||
    (s.relate e.2).numHistory > filtMin (fun slot => (s.relate slot).numHistory) K order

def filtTerm (s : State) (K : Nat) (ord : Order) (i : Nat) (t : TermInfo) : TermInfo × List Nat :=
  sweptTerm ord (fun t => t.relateTermNum.toNat < K)
    (fun _ order n e => decide (n < K * 2) && filtKeep s K order e) i t

theorem filtIndex_eq (s : State) (K : Nat) (ord : Order) : s.filtIndex K ord =
    { s with
      mTermInfo := s.mTermInfo.zipIdx.map fun e => (filtTerm s K ord e.2 e.1).1
      mRelateIndexSlot := s.mRelateIndexSlot ++
        s.mTermInfo.zipIdx.flatMap fun e => (filtTerm s K ord e.2 e.1).2 } := by
  rw [filtIndex, State.sweepIndex, sweepTerms_eq]
  rfl

section
variable {s : State} {K : Nat} {ord : Order} {i : Nat} {t : TermInfo}

/-- The cap does not bind: what it lets through is less than twice `K`. -/
theorem filtTerm_eq (hpos : 1 ≤ K) (hnum : K ≤ t.relateTermNum.toNat) (hK : K ≤ t.coocTerm.size) :
    let order := ord.walk i t.coocTerm
    let r := HashMap.sweep (fun _ => filtKeep s K order) order t.coocTerm 0 []
    filtTerm s K ord i t =
      ({ t with coocTerm := r.1, relateTermNum := UInt32.ofNat r.2.1 }, r.2.2) := by
  intro order r
  have hp : order.Perm t.coocTerm.entries := ord.perm i t.coocTerm
  have hlen : K ≤ order.length := hK.trans hp.length_eq.ge
  have hnow := countP_filtMin_lt (fun slot => (s.relate slot).numNow) hpos hlen
  have hhis := countP_filtMin_lt (fun slot => (s.relate slot).numHistory) hpos hlen
  have hcap : 0 + order.countP (filtKeep s K order) ≤ K * 2 := by
    have := countP_or_le
      (fun e : Σ _ : UInt32, Nat =>
        decide ((s.relate e.2).numNow > filtMin (fun slot => (s.relate slot).numNow) K order))
      (fun e : Σ _ : UInt32, Nat => decide ((s.relate e.2).numHistory >
        filtMin (fun slot => (s.relate slot).numHistory) K order)) order
    have hkeep : order.countP (filtKeep s K order) ≤ (K - 1) + (K - 1) :=
      this.trans (Nat.add_le_add hnow hhis)
    omega
  have hskip : ¬ t.relateTermNum.toNat < K := by omega
  rw [filtTerm, sweptTerm, if_neg (by simpa using hskip)]
  simp only [HashMap.sweep_capped (filtKeep s K order) [] hcap, order, r]

variable (s ord i) in
theorem filtTerm_entries (hpos : 1 ≤ K) (hnum : K ≤ t.relateTermNum.toNat)
    (hK : K ≤ t.coocTerm.size) :
    (filtTerm s K ord i t).1.coocTerm.entries.Perm
      ((ord.walk i t.coocTerm).filter (filtKeep s K (ord.walk i t.coocTerm))) := by
  rw [filtTerm_eq hpos hnum hK]
  exact HashMap.entries_sweep _ [] (ord.perm i t.coocTerm).symm 0 []

theorem filtTerm_skip (hnum : t.relateTermNum.toNat = t.coocTerm.size)
    (hK : t.coocTerm.size < K) : filtTerm s K ord i t = (t, []) := by
  rw [filtTerm, sweptTerm, if_pos (by simpa [hnum] using hK)]

theorem filtTerm_winners (hpos : 1 ≤ K) (hnum : t.relateTermNum.toNat = t.coocTerm.size)
    (hK : K ≤ t.coocTerm.size) (hsmall : SmallCounts s t) :
    (∀ hash slot, (filtTerm s K ord i t).1.coocTerm.lookup hash = some slot ↔
      t.coocTerm.lookup hash = some slot ∧ Winner s K t slot) ∧
    (filtTerm s K ord i t).1.relateTermNum.toNat = (filtTerm s K ord i t).1.coocTerm.size := by
  have hp : (ord.walk i t.coocTerm).Perm t.coocTerm.entries := ord.perm i t.coocTerm
  have hlen : K ≤ (ord.walk i t.coocTerm).length := hK.trans hp.length_eq.ge
  have hsmall' : ∀ e ∈ ord.walk i t.coocTerm, (s.relate e.2).numNow.toNat < 2 ^ 31 ∧
      (s.relate e.2).numHistory.toNat < 2 ^ 31 := fun e he =>
    hsmall e.2 (List.mem_map_of_mem (hp.mem_iff.mp he))
  have hkeep : ∀ hash slot, filtKeep s K (ord.walk i t.coocTerm) ⟨hash, slot⟩ = true ↔
      Winner s K t slot := by
    intro hash slot
    rw [Winner, exceeds_iff hpos hp hlen fun e he => (hsmall' e he).1,
      exceeds_iff hpos hp hlen fun e he => (hsmall' e he).2, filtKeep, Bool.or_eq_true,
      decide_eq_true_eq, decide_eq_true_eq]
  constructor
  · intro hash slot
    have he := (filtTerm_entries s ord i hpos (hnum.ge.trans' hK) hK).mem_iff
      (a := ⟨hash, slot⟩)
    rw [← AList.mem_lookup_iff, Option.mem_def, List.mem_filter, ord.mem_walk, hkeep] at he
    exact he
  · have hlt : t.coocTerm.size < 2 ^ 32 := hnum ▸ t.relateTermNum.toNat_lt
    rw [filtTerm_eq hpos (hnum.ge.trans' hK) hK]
    have hswept := (sweep_term ord (fun _ order _ e => filtKeep s K order e) i t []).1
    exact hswept.relateNum hlt hnum

end

/-- After `FiltIndex` a term with at least `K` related terms has exactly the
winners, in whatever order its map is walked, and every slot it gives up is
free once. -/
theorem filtIndex_winners (s : State)
    (hnum : ∀ t ∈ s.mTermInfo, t.relateTermNum.toNat = t.coocTerm.size) (K : Nat) (hpos : 1 ≤ K)
    (ord : Order) :
    (s.filtIndex K ord).mTermInfo.length = s.mTermInfo.length ∧
    (∀ (i : Nat) (t t' : TermInfo), s.mTermInfo[i]? = some t →
      (s.filtIndex K ord).mTermInfo[i]? = some t' →
      (t.coocTerm.size < K → t' = t) ∧
      (K ≤ t.coocTerm.size → SmallCounts s t →
        (∀ hash slot, t'.coocTerm.lookup hash = some slot ↔
          t.coocTerm.lookup hash = some slot ∧ Winner s K t slot) ∧
        t'.relateTermNum.toNat = t'.coocTerm.size)) ∧
    ∃ freed, (s.filtIndex K ord).mRelateIndexSlot = s.mRelateIndexSlot ++ freed ∧
      freed.Perm ((s.mTermInfo.zip (s.filtIndex K ord).mTermInfo).flatMap fun e =>
        (e.1.coocTerm.entries.filter fun c => c.1 ∉ e.2.coocTerm).map Sigma.snd) := by
  rw [filtIndex_eq]
  refine ⟨by simp, ?_, _, rfl, ?_⟩
  · intro i t t' ht ht'
    have hi : s.mTermInfo.zipIdx[i]? = some (t, i) := by simp [ht]
    rw [List.getElem?_map, hi, Option.map_some, Option.some.injEq] at ht'
    subst ht'
    have hn := hnum t (List.mem_of_getElem? ht)
    refine ⟨fun hK => ?_, fun hK hsmall => filtTerm_winners hpos hn hK hsmall⟩
    rw [filtTerm_skip hn hK]
  · have hzip : s.mTermInfo.zip (s.mTermInfo.zipIdx.map fun e => (filtTerm s K ord e.2 e.1).1) =
        s.mTermInfo.zipIdx.map fun e => (e.1, (filtTerm s K ord e.2 e.1).1) := by
      conv_lhs => arg 1; rw [← List.zipIdx_map_fst 0 s.mTermInfo]
      exact List.zip_map'
    simp only [hzip, List.flatMap_map]
    refine List.Perm.flatMap_left _ fun e _ => ?_
    exact sweptTerm_freed _ _ _ e.2 e.1

def threeRelated : State :=
  { State.empty with
    mTermInfo := [⟨[97], 0, 1, 3, HashMap.insertAll ∅ [⟨3, 2⟩, ⟨2, 1⟩, ⟨1, 0⟩]⟩]
    mRelateInfo := [⟨0, 1, 0⟩, ⟨0, 3, 0⟩, ⟨0, 2, 0⟩] }

/-- With `K = 2` only the count 3 is a winner. -/
theorem filtIndex_winners_three : ∃ freed,
    (threeRelated.filtIndex 2 (IterOrder.held _ _)).mRelateIndexSlot = [] ++ freed ∧
      freed.Perm [0, 2] := by
  obtain ⟨-, -, freed, hfreed, hp⟩ := filtIndex_winners threeRelated (by decide +kernel) 2 (by decide)
    (IterOrder.held _ _)
  refine ⟨freed, hfreed, ?_⟩
  have hslots : ((threeRelated.mTermInfo.zip
      (threeRelated.filtIndex 2 (IterOrder.held _ _)).mTermInfo).flatMap fun e =>
        (e.1.coocTerm.entries.filter fun c => c.1 ∉ e.2.coocTerm).map Sigma.snd) = [0, 2] := by
    decide +kernel
  rwa [hslots] at hp

end TextMining.WordNet
