import TextMining.WordNet.Counting
import TextMining.WordNet.Winners

/-!
# Related terms that `FiltIndex` should not drop

"Delete the term outside top K": a related term goes only when `K` others are
as large in both counts, and at least `K` stay. The code keeps those strictly
above the first item of a heap, so the K-th one itself goes too.
`filtIndex_keepsTop_iff` says for which indexes nothing of the top K is lost.
-/

namespace TextMining.WordNet

open MinHeap State

/-- How many other related terms of the term are as large. -/
def others (count : Nat → UInt32) (t : TermInfo) (e : Σ _ : UInt32, Nat) : Nat :=
  t.coocTerm.entries.countP fun o => o.1 ≠ e.1 ∧ count e.2 ≤ count o.2

/-- `FiltIndex(K)` keeps the top K of every term. -/
def KeepsTop (s : State) (K : Nat) (ord : Order) : Prop :=
  ∀ (i : Nat) (t t' : TermInfo), s.mTermInfo[i]? = some t →
    (s.filtIndex K ord).mTermInfo[i]? = some t' → K ≤ t.coocTerm.size →
    (∀ e ∈ t.coocTerm.entries, e.1 ∉ t'.coocTerm →
      K ≤ others (fun slot => (s.relate slot).numNow) t e ∧
        K ≤ others (fun slot => (s.relate slot).numHistory) t e) ∧
    K ≤ t'.coocTerm.size

-- ---------------------------------------------------------------------------
-- The condition
-- ---------------------------------------------------------------------------

section
variable (count : Nat → UInt32) (K : Nat) (order : List (Σ _ : UInt32, Nat))
  (e : Σ _ : UInt32, Nat)

/-- The count is larger than the one at the threshold: the K-th largest, if
all counts are below `2 ^ 31`. -/
def above : Bool :=
  (kthLargest (place K (order.map fun e => count e.2)) (order.map fun e => (count e.2).toNat)).any
    fun v => v < (count e.2).toNat

/-- The count is not above the threshold, and larger than all that come after
the `K` largest. -/
def edge : Bool :=
  !above count K order e &&
    (kthLargest (K + 1) (order.map fun e => (count e.2).toNat)).all fun v => v < (count e.2).toNat

end

/-- The related terms at the edge of the top K by one count are above the
threshold by the other, and at least `K` related terms are above one. -/
structure Separated (s : State) (K : Nat) (order : List (Σ _ : UInt32, Nat)) : Prop where
  now : ∀ e ∈ order, edge (fun slot => (s.relate slot).numNow) K order e = true →
    above (fun slot => (s.relate slot).numHistory) K order e = true
  history : ∀ e ∈ order, edge (fun slot => (s.relate slot).numHistory) K order e = true →
    above (fun slot => (s.relate slot).numNow) K order e = true
  remain : K ≤ order.countP fun e => above (fun slot => (s.relate slot).numNow) K order e ||
    above (fun slot => (s.relate slot).numHistory) K order e

-- ---------------------------------------------------------------------------
-- Terms
-- ---------------------------------------------------------------------------

section
variable {count : Nat → UInt32} {s : State} {K : Nat} {ord : Order} {i : Nat} {t : TermInfo}
  {order : List (Σ _ : UInt32, Nat)} {e : Σ _ : UInt32, Nat}

theorem above_eq (hpos : 1 ≤ K) (hK : K ≤ order.length) :
    above count K order e = decide (count e.2 > filtMin count K order) := by
  rw [above, kthLargest_filtMin count hpos hK, Option.any_some]
  exact decide_eq_decide.mpr UInt32.lt_iff_toNat_lt.symm

theorem filtKeep_eq (hpos : 1 ≤ K) (hK : K ≤ order.length) :
    filtKeep s K order e = (above (fun slot => (s.relate slot).numNow) K order e ||
      above (fun slot => (s.relate slot).numHistory) K order e) := by
  rw [above_eq hpos hK, above_eq hpos hK, filtKeep]

theorem not_above_of_edge (h : edge count K order e = true) : above count K order e = false := by
  rw [edge, Bool.and_eq_true] at h
  simpa using h.1

theorem countP_eq_others (he : e ∈ t.coocTerm.entries) :
    t.coocTerm.entries.countP (fun o => count e.2 ≤ count o.2) = others count t e + 1 := by
  obtain ⟨pre, post, hsplit⟩ := List.append_of_mem he
  have hnd := t.coocTerm.nodupKeys
  rw [others]
  rw [hsplit] at hnd ⊢
  have hne : ∀ o, o ∈ pre ++ post → o.1 ≠ e.1 := by
    intro o ho heq
    have hp : (e :: (pre ++ post)).NodupKeys :=
      (List.perm_nodupKeys List.perm_middle).mp hnd
    exact (List.nodupKeys_cons.mp hp).1 (heq ▸ List.mem_keys_of_mem ho)
  have hcongr : (pre ++ post).countP (fun o => count e.2 ≤ count o.2) =
      (pre ++ post).countP (fun o => o.1 ≠ e.1 ∧ count e.2 ≤ count o.2) :=
    List.countP_congr fun o ho => by simp [hne o ho]
  rw [List.perm_middle.countP_eq, List.perm_middle.countP_eq, List.countP_cons_of_pos (by simp),
    List.countP_cons_of_neg (by simp), hcongr]

/-- Fewer than `K` others are as large if and only if the ones after the `K`
largest are smaller. -/
theorem others_lt_iff (hp : order.Perm t.coocTerm.entries) (he : e ∈ t.coocTerm.entries) :
    others count t e < K ↔ ((kthLargest (K + 1) (order.map fun e => (count e.2).toNat)).all
      fun v => v < (count e.2).toNat) = true := by
  have hcount : (order.map fun e => (count e.2).toNat).countP (fun y => (count e.2).toNat ≤ y) =
      others count t e + 1 := by
    rw [← countP_eq_others he, List.countP_map, hp.countP_eq]
    refine List.countP_congr fun o _ => ?_
    rw [Function.comp, decide_eq_true_eq, decide_eq_true_eq, UInt32.le_iff_toNat_le]
  rw [← Nat.succ_le_iff, Nat.succ_eq_add_one, ← hcount, countP_le_iff]
  simp only [Option.all_eq_true, decide_eq_true_eq]

theorem edge_eq (hp : order.Perm t.coocTerm.entries) (he : e ∈ order) :
    edge count K order e = (!above count K order e && decide (others count t e < K)) := by
  rw [edge, Bool.eq_iff_iff.mpr ((others_lt_iff hp (hp.mem_iff.mp he)).symm.trans
    decide_eq_true_iff.symm)]

theorem filtTerm_separated (hpos : 1 ≤ K) (hnum : K ≤ t.relateTermNum.toNat)
    (hK : K ≤ t.coocTerm.size) :
    ((∀ e ∈ t.coocTerm.entries, e.1 ∉ (filtTerm s K ord i t).1.coocTerm →
      K ≤ others (fun slot => (s.relate slot).numNow) t e ∧
        K ≤ others (fun slot => (s.relate slot).numHistory) t e) ∧
      K ≤ (filtTerm s K ord i t).1.coocTerm.size) ↔ Separated s K (ord.walk i t.coocTerm) := by
  have hp : (ord.walk i t.coocTerm).Perm t.coocTerm.entries := ord.perm i t.coocTerm
  have hlen : K ≤ (ord.walk i t.coocTerm).length := hK.trans hp.length_eq.ge
  have hkept := filtTerm_entries s ord i hpos hnum hK
  have hsize : (filtTerm s K ord i t).1.coocTerm.size =
      (ord.walk i t.coocTerm).countP (filtKeep s K (ord.walk i t.coocTerm)) := by
    rw [HashMap.size, hkept.length_eq, List.countP_eq_length_filter]
  have hgone : ∀ e ∈ t.coocTerm.entries, e.1 ∉ (filtTerm s K ord i t).1.coocTerm ↔
      filtKeep s K (ord.walk i t.coocTerm) e = false := by
    intro e he
    rw [← Bool.not_eq_true, not_iff_not]
    constructor
    · intro hm
      obtain ⟨slot, hslot⟩ := HashMap.exists_of_mem hm
      obtain ⟨hin, hkeep⟩ := List.mem_filter.mp
        (hkept.mem_iff.mp (AList.mem_lookup_iff.mp (Option.mem_def.mpr hslot)))
      have hsame : (⟨e.1, slot⟩ : Σ _ : UInt32, Nat) = e :=
        t.coocTerm.nodupKeys.eq_of_fst_eq (hp.mem_iff.mp hin) he rfl
      rwa [hsame] at hkeep
    · intro hkeep
      exact List.mem_map_of_mem (hkept.mem_iff.mpr (List.mem_filter.mpr ⟨hp.mem_iff.mpr he, hkeep⟩))
  generalize ord.walk i t.coocTerm = order at hp hlen hsize hgone
  rw [hsize]
  have hrivals : ∀ (count : Nat → UInt32) (e : Σ _ : UInt32, Nat), e ∈ t.coocTerm.entries →
      above count K order e = false → (K ≤ others count t e ↔ edge count K order e = false) := by
    intro count e he habove
    rw [edge_eq hp (hp.mem_iff.mpr he), habove, Bool.not_false, Bool.true_and,
      decide_eq_false_iff_not, not_lt]
  constructor
  · rintro ⟨hall, hremain⟩
    refine ⟨fun e he hedge => ?_, fun e he hedge => ?_, ?_⟩
    · by_contra hhis
      have hnow := not_above_of_edge hedge
      have hin := hp.mem_iff.mp he
      have hk : filtKeep s K order e = false := by
        rw [filtKeep_eq hpos hlen, hnow, Bool.false_or]
        simpa using hhis
      have hn := (hrivals _ e hin hnow).mp (hall e hin ((hgone e hin).mpr hk)).1
      cases hedge.symm.trans hn
    · by_contra hnow
      have hhis := not_above_of_edge hedge
      have hin := hp.mem_iff.mp he
      have hk : filtKeep s K order e = false := by
        rw [filtKeep_eq hpos hlen, hhis, Bool.or_false]
        simpa using hnow
      have hn := (hrivals _ e hin hhis).mp (hall e hin ((hgone e hin).mpr hk)).2
      cases hedge.symm.trans hn
    · rwa [List.countP_congr fun e _ => by rw [filtKeep_eq hpos hlen]] at hremain
  · rintro ⟨hnow, hhis, hremain⟩
    refine ⟨fun e he hnot => ?_, ?_⟩
    · have hk := (hgone e he).mp hnot
      rw [filtKeep_eq hpos hlen, Bool.or_eq_false_iff] at hk
      have hin := hp.mem_iff.mpr he
      constructor
      · refine (hrivals _ e he hk.1).mpr (Bool.eq_false_iff.mpr fun hedge => ?_)
        cases hk.2.symm.trans (hnow e hin hedge)
      · refine (hrivals _ e he hk.2).mpr (Bool.eq_false_iff.mpr fun hedge => ?_)
        cases hk.1.symm.trans (hhis e hin hedge)
    · rwa [List.countP_congr fun e _ => by rw [filtKeep_eq hpos hlen]]

end

-- ---------------------------------------------------------------------------
-- The index
-- ---------------------------------------------------------------------------

theorem filtIndex_getElem? {s : State} {K : Nat} {ord : Order} {i : Nat} {t : TermInfo}
    (ht : s.mTermInfo[i]? = some t) :
    (s.filtIndex K ord).mTermInfo[i]? = some (filtTerm s K ord i t).1 := by
  have hi : s.mTermInfo.zipIdx[i]? = some (t, i) := by simp [ht]
  rw [filtIndex_eq]
  simp only [List.getElem?_map, hi, Option.map_some]

/-- `FiltIndex(K)` keeps the top K of every term if and only if the terms that
it does not skip are separated. -/
theorem filtIndex_keepsTop_iff (s : State) (K : Nat) (hpos : 1 ≤ K) (ord : Order) :
    KeepsTop s K ord ↔ ∀ (i : Nat) (t : TermInfo), s.mTermInfo[i]? = some t →
      K ≤ t.coocTerm.size → K ≤ t.relateTermNum.toNat →
        Separated s K (ord.walk i t.coocTerm) := by
  constructor
  · intro h i t ht hK hnum
    exact (filtTerm_separated hpos hnum hK).mp (h i t _ ht (filtIndex_getElem? ht) hK)
  · intro h i t t' ht ht' hK
    obtain rfl := Option.some.inj ((filtIndex_getElem? ht).symm.trans ht')
    by_cases hnum : K ≤ t.relateTermNum.toNat
    · exact (filtTerm_separated hpos hnum hK).mpr (h i t ht hK hnum)
    · have hskip : (filtTerm s K ord i t).1 = t := by
        rw [filtTerm, sweptTerm, if_pos (by simpa using hnum)]
      rw [hskip]
      exact ⟨fun e he hnot => absurd (List.mem_map_of_mem he) hnot, hK⟩

/-- A term with two related terms, each the larger one by one of the counts. -/
def twoRelated : State :=
  { State.empty with
    mTermInfo := [⟨[97], 0, 1, 2, HashMap.insertAll ∅ [⟨2, 1⟩, ⟨1, 0⟩]⟩]
    mRelateInfo := [⟨1, 2, 0⟩, ⟨2, 1, 0⟩] }

theorem filtIndex_keepsTop_two : KeepsTop twoRelated 2 (IterOrder.held _ _) := by
  refine (filtIndex_keepsTop_iff twoRelated 2 (by decide) _).mpr fun i t ht _ _ => ?_
  cases i with
  | zero =>
    obtain rfl := Option.some.inj ht
    refine ⟨fun e he => ?_, fun e he => ?_, ?_⟩
    · rw [edge_eq ((IterOrder.held _ _).perm 0 _) he, above_eq (by decide) (by decide), above_eq (by decide) (by decide)]
      revert e
      decide +kernel
    · rw [edge_eq ((IterOrder.held _ _).perm 0 _) he, above_eq (by decide) (by decide), above_eq (by decide) (by decide)]
      revert e
      decide +kernel
    · have hlen : 2 ≤ ((IterOrder.held UInt32 Nat).walk 0
          (HashMap.insertAll ∅ [⟨2, 1⟩, ⟨1, 0⟩])).length := by decide
      simp only [above_eq (show 1 ≤ 2 by decide) hlen]
      decide +kernel
  | succ i => exact nomatch ht

/-- After one line of two terms each is the only related term of the other,
and `FiltIndex(1)` drops both. -/
theorem single_relation_dropped :
    let hashlittle := JenkinsHash.hashString
    let s := run hashlittle State.empty
      [.parseLineTerms lineAB (fun _ => .ok) (IterOrder.held _ _)]
    s.mTermInfo.map (fun t => t.coocTerm.size) = [1, 1] ∧
      (s.filtIndex 1 (IterOrder.held _ _)).mTermInfo.map (fun t => t.coocTerm.size) = [0, 0] ∧
      ¬ KeepsTop s 1 (IterOrder.held _ _) := by
  intro hashlittle s
  have hbefore : s.mTermInfo.map (fun t => t.coocTerm.size) = [1, 1] := by decide +kernel
  have hafter : (s.filtIndex 1 (IterOrder.held _ _)).mTermInfo.map (fun t => t.coocTerm.size) =
      [0, 0] := by decide +kernel
  refine ⟨hbefore, hafter, fun h => ?_⟩
  obtain ⟨t, ht, hsize⟩ : ∃ t, s.mTermInfo[0]? = some t ∧ t.coocTerm.size = 1 := by
    have h0 := congrArg (·[0]?) hbefore
    simpa [List.getElem?_map] using h0
  obtain ⟨t', ht', hsize'⟩ : ∃ t', (s.filtIndex 1 (IterOrder.held _ _)).mTermInfo[0]? = some t' ∧
      t'.coocTerm.size = 0 := by
    have h0 := congrArg (·[0]?) hafter
    simpa [List.getElem?_map] using h0
  have hremain := (h 0 t t' ht ht' hsize.ge).2
  omega

end TextMining.WordNet
