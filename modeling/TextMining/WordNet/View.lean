import TextMining.Lib.Cooccurrence
import TextMining.WordNet.Invariant

/-!
# What the index records

`view` forgets indices and slots: it gives for each hash the data of its term
and, for each related hash, the record in its slot. On views, indexing a line
is `Cooc.Index.addLine` as long as the pairs find room.
-/

namespace TextMining.WordNet

open State Cooc

structure TermData where
  termstr : List UInt8
  dfHistory : UInt32
  dfNow : UInt32
  deriving DecidableEq

def TermData.again (d : TermData) : TermData := { d with dfNow := d.dfNow + 1 }

def TermData.new (term : List UInt8) : TermData := ⟨snprintf 64 term, 0, 1⟩

def RelateTermInfo.bump (r : RelateTermInfo) : RelateTermInfo := { r with numNow := r.numNow + 1 }

def RelateTermInfo.next : Option RelateTermInfo → RelateTermInfo
  | none => .fresh
  | some r => r.bump

abbrev View := Index UInt32 TermData RelateTermInfo

def State.entry (s : State) (t : TermInfo) : Entry UInt32 TermData RelateTermInfo :=
  ⟨⟨t.termstr, t.dfHistory, t.dfNow⟩, fun hash => (t.coocTerm.lookup hash).map s.relate⟩

def State.view (s : State) : View := fun hash =>
  (s.mTermIndex.lookup hash).bind fun i => s.mTermInfo[i]?.map s.entry

section
variable {s : State}

theorem view_eq_none (h : Inv s) {hash : UInt32} : s.view hash = none ↔ hash ∉ s.mTermIndex := by
  rw [← AList.lookup_eq_none]
  cases hl : s.mTermIndex.lookup hash with
  | none => simp [State.view, hl]
  | some i =>
    have hlt : i < s.mTermInfo.length := (h.index i).mpr ⟨hash, hl⟩
    simp [State.view, hl, List.getElem?_eq_getElem hlt]

theorem view_of_lookup {hash : UInt32} {i : Nat} (hl : s.mTermIndex.lookup hash = some i) :
    s.view hash = s.mTermInfo[i]?.map s.entry := by
  rw [State.view, hl, Option.bind_some]

theorem view_congr {s₁ s₂ : State} (hidx : s₂.mTermIndex = s₁.mTermIndex)
    (h : ∀ i : Nat, s₂.mTermInfo[i]?.map s₂.entry = s₁.mTermInfo[i]?.map s₁.entry) :
    s₂.view = s₁.view := by
  funext hash
  rw [State.view, hidx, State.view]
  congr 1
  funext i
  exact h i

theorem Inv.view_update {s₁ s₂ : State} (h : Inv s₁) (hidx : s₂.mTermIndex = s₁.mTermIndex)
    {hash : UInt32} {i : Nat} (hl : s₁.mTermIndex.lookup hash = some i)
    (hne : ∀ j : Nat, j ≠ i → s₂.mTermInfo[j]?.map s₂.entry = s₁.mTermInfo[j]?.map s₁.entry) :
    s₂.view = Function.update s₁.view hash (s₂.mTermInfo[i]?.map s₂.entry) := by
  funext hash'
  by_cases he : hash' = hash
  · subst he
    rw [Function.update_self, State.view, hidx, hl, Option.bind_some]
  · rw [Function.update_of_ne he, State.view, hidx, State.view]
    cases hl' : s₁.mTermIndex.lookup hash' with
    | none => rfl
    | some j => exact hne j fun hc => he (h.indexInj _ _ _ hl' (hc ▸ hl))

-- ---------------------------------------------------------------------------
-- Slots
-- ---------------------------------------------------------------------------

theorem flatMap_index_unique {α β : Type*} {l : List α} {g : α → List β}
    (hd : (l.flatMap g).Nodup) {i j : Nat} {a b : α} (ha : l[i]? = some a) (hb : l[j]? = some b)
    {x : β} (hxa : x ∈ g a) (hxb : x ∈ g b) : i = j := by
  have hp := (List.nodup_flatMap.mp hd).2
  obtain ⟨hi, rfl⟩ := List.getElem?_eq_some_iff.mp ha
  obtain ⟨hj, rfl⟩ := List.getElem?_eq_some_iff.mp hb
  rcases Nat.lt_trichotomy i j with hlt | rfl | hlt
  · exact absurd hxb (List.pairwise_iff_getElem.mp hp i j hi hj hlt hxa)
  · rfl
  · exact absurd hxa (List.pairwise_iff_getElem.mp hp j i hj hi hlt hxb)

theorem Inv.slot_unique (h : Inv s) {i i' : Nat} {t t' : TermInfo} {hash hash' : UInt32} {slot : Nat}
    (ht : s.mTermInfo[i]? = some t) (ht' : s.mTermInfo[i']? = some t')
    (hs : t.coocTerm.lookup hash = some slot) (hs' : t'.coocTerm.lookup hash' = some slot) :
    i = i' ∧ hash = hash' := by
  have hd : s.usedSlots.Nodup := (List.nodup_append.mp h.slots).1
  have hi : i = i' := flatMap_index_unique hd ht ht' (HashMap.mem_values.mpr ⟨hash, hs⟩)
    (HashMap.mem_values.mpr ⟨hash', hs'⟩)
  subst hi
  obtain rfl : t = t' := Option.some.inj (ht.symm.trans ht')
  have hv : t.coocTerm.values.Nodup :=
    (List.nodup_flatMap.mp hd).1 t (List.mem_of_getElem? ht)
  exact ⟨rfl, HashMap.lookup_inj hv hs hs'⟩

theorem Inv.slot_lt (h : Inv s) {i : Nat} {t : TermInfo} (ht : s.mTermInfo[i]? = some t)
    {hash : UInt32} {slot : Nat} (hs : t.coocTerm.lookup hash = some slot) :
    slot < s.mRelateInfo.length :=
  h.bound slot (List.mem_append_left _ (mem_usedSlots.mpr ⟨t, List.mem_of_getElem? ht, hash, hs⟩))

-- ---------------------------------------------------------------------------
-- Updates
-- ---------------------------------------------------------------------------

theorem entry_congr {s₁ s₂ : State} {t : TermInfo}
    (h : ∀ hash slot, t.coocTerm.lookup hash = some slot → s₂.relate slot = s₁.relate slot) :
    s₂.entry t = s₁.entry t := by
  simp only [State.entry, Entry.mk.injEq, true_and]
  funext hash
  cases hl : t.coocTerm.lookup hash with
  | none => rfl
  | some slot => simp [h hash slot hl]

theorem view_pushRelate (h : Inv s) : s.pushRelate.view = s.view := by
  refine view_congr rfl fun i => Option.map_congr fun t ht => entry_congr fun hash slot hs => ?_
  simp [State.relate, State.pushRelate, List.getElem?_append_left (h.slot_lt ht hs)]

theorem view_recordPair (h : Inv s) {hashI hashJ : UInt32} (hi : hashI ∈ s.mTermIndex)
    (slot : Nat) :
    ((s.setCooc (s.termIndex hashI) hashJ slot).countRelate (s.termIndex hashI)).view =
      Function.update s.view hashI ((s.view hashI).map fun e =>
        { e with related := Function.update e.related hashJ (some (s.relate slot)) }) := by
  obtain ⟨hl, t, ht⟩ := h.term hi
  rw [setCooc_countRelate]
  refine (h.view_update ?_ hl fun j hj => ?_).trans ?_
  · rfl
  · rw [List.getElem?_modify_ne _ _ (Ne.symm hj)]
    rfl
  · congr 1
    rw [view_of_lookup hl, ht]
    simp only [List.getElem?_modify_eq, ht, Option.map_eq_map, Option.map_some, Option.some.injEq,
      State.entry, TermInfo.addCooc, Entry.mk.injEq, true_and]
    funext hash
    by_cases he : hash = hashJ
    · subst he
      rw [AList.lookup_insert, Function.update_self]
      rfl
    · rw [AList.lookup_insert_ne he, Function.update_of_ne he]
      rfl

theorem relate_modifyRelate {slot : Nat} (hlt : slot < s.mRelateInfo.length)
    (f : RelateTermInfo → RelateTermInfo) (slot' : Nat) :
    (s.modifyRelate slot f).relate slot' =
      if slot' = slot then f (s.relate slot) else s.relate slot' := by
  by_cases he : slot' = slot
  · subst he
    simp [State.relate, State.modifyRelate, List.getElem?_eq_getElem hlt]
  · rw [if_neg he, State.relate, State.modifyRelate, List.getElem?_modify_ne _ _ (Ne.symm he)]
    rfl

theorem view_bump (h : Inv s) {hashI hashJ : UInt32} (hi : hashI ∈ s.mTermIndex) {slot : Nat}
    (hf : s.findCooc (s.termIndex hashI) hashJ = some slot) :
    (s.modifyRelate slot RelateTermInfo.bump).view = s.view.bump .next hashI hashJ := by
  obtain ⟨hl, t, ht⟩ := h.term hi
  have hs : t.coocTerm.lookup hashJ = some slot := by
    rwa [findCooc, ht, Option.bind_some] at hf
  have hrel := relate_modifyRelate (h.slot_lt ht hs) RelateTermInfo.bump
  refine (h.view_update ?_ hl fun j hj => ?_).trans ?_
  · rfl
  · refine Option.map_congr fun t' ht' => entry_congr fun hash slot' hs' => ?_
    have hne : slot' ≠ slot := fun hc => hj (h.slot_unique ht' ht (hc ▸ hs') hs).1
    exact (hrel slot').trans (if_neg hne)
  · rw [Index.bump, view_of_lookup hl, ht]
    simp only [State.modifyRelate, ht, Option.map_some]
    congr 1
    simp only [Option.some.injEq, State.entry, Entry.mk.injEq, true_and]
    funext hash
    by_cases he : hash = hashJ
    · subst he
      rw [Function.update_self, hs]
      exact congrArg some ((hrel slot).trans (if_pos rfl))
    · rw [Function.update_of_ne he]
      cases hs' : t.coocTerm.lookup hash with
      | none => rfl
      | some slot' =>
        have hne : slot' ≠ slot := fun hc => he (h.slot_unique ht ht (hc ▸ hs') hs).2
        exact congrArg some ((hrel slot').trans (if_neg hne))

theorem view_find (h : Inv s) {hashI : UInt32} (hi : hashI ∈ s.mTermIndex) (hashJ : UInt32) :
    ∃ e, s.view hashI = some e ∧
      e.related hashJ = (s.findCooc (s.termIndex hashI) hashJ).map s.relate := by
  obtain ⟨hl, t, ht⟩ := h.term hi
  refine ⟨s.entry t, ?_, ?_⟩
  · rw [view_of_lookup hl, ht, Option.map_some]
  · rw [findCooc, ht, Option.bind_some]
    rfl

theorem view_recordPair_fresh (h : Inv s) {hashI hashJ : UInt32} (hi : hashI ∈ s.mTermIndex)
    (hnew : s.findCooc (s.termIndex hashI) hashJ = none) {slot : Nat}
    (hr : s.relate slot = .fresh) :
    ((s.setCooc (s.termIndex hashI) hashJ slot).countRelate (s.termIndex hashI)).view =
      s.view.bump .next hashI hashJ := by
  obtain ⟨e, he, hn⟩ := view_find h hi hashJ
  rw [view_recordPair h hi, Index.bump, he, hr]
  simp [hn, hnew, RelateTermInfo.next]

theorem view_append (h : Inv s) {hashI hashJ : UInt32} (hi : hashI ∈ s.mTermIndex)
    (hnew : s.findCooc (s.termIndex hashI) hashJ = none) :
    ((s.pushRelate.setCooc (s.termIndex hashI) hashJ s.mRelateInfo.length).countRelate
      (s.termIndex hashI)).view = s.view.bump .next hashI hashJ := by
  rw [← view_pushRelate h]
  refine view_recordPair_fresh (s := s.pushRelate) h.pushRelate hi hnew ?_
  simp [State.relate, State.pushRelate]

-- ---------------------------------------------------------------------------
-- A pair
-- ---------------------------------------------------------------------------

structure SameTerms (s s' : State) : Prop where
  termIndex : s'.mTermIndex = s.mTermIndex
  termNum : s'.total.termNum = s.total.termNum
  weiboNum : s'.total.weiboNum = s.total.weiboNum

theorem SameTerms.trans {s₁ s₂ s₃ : State} (h : SameTerms s₁ s₂) (h' : SameTerms s₂ s₃) :
    SameTerms s₁ s₃ :=
  ⟨h'.termIndex.trans h.termIndex, h'.termNum.trans h.termNum, h'.weiboNum.trans h.weiboNum⟩

theorem sameTerms_slotSource (alloc : Alloc) (ord : Order) :
    SameTerms s (slotSource s alloc ord) := by
  unfold slotSource
  split
  · exact ⟨rfl, rfl, rfl⟩
  · split <;> exact ⟨rfl, rfl, rfl⟩

theorem PairStep.sameTerms {hashI hashJ : UInt32} {alloc : Alloc} {ord : Order}
    {r : Except State State} (hr : PairStep s hashI hashJ alloc ord r) :
    SameTerms s (outcome r) := by
  cases hr with
  | bump => exact ⟨rfl, rfl, rfl⟩
  | append => exact ⟨rfl, rfl, rfl⟩
  | reuse => exact (sameTerms_slotSource alloc ord).trans ⟨rfl, rfl, rfl⟩
  | fail => exact sameTerms_slotSource alloc ord

theorem view_reuse (h : Inv s) {hashI hashJ : UInt32} (hi : hashI ∈ s.mTermIndex)
    (hnew : s.findCooc (s.termIndex hashI) hashJ = none) {alloc : Alloc} {ord : Order} {slot : Nat}
    (hr : (slotSource s alloc ord).relate slot = .fresh) :
    (((popSlot (slotSource s alloc ord)).setCooc (s.termIndex hashI) hashJ slot).countRelate
      (s.termIndex hashI)).view = (slotSource s alloc ord).view.bump .next hashI hashJ := by
  have hsrc := (h.slotSource alloc ord).popSlot
  have hidx : (slotSource s alloc ord).mTermIndex = s.mTermIndex := slotSource_termIndex alloc ord
  have hterm : (popSlot (slotSource s alloc ord)).termIndex hashI = s.termIndex hashI :=
    termIndex_slotSource alloc ord hashI
  have hnew' : (popSlot (slotSource s alloc ord)).findCooc
      ((popSlot (slotSource s alloc ord)).termIndex hashI) hashJ = none := by
    rw [hterm]
    exact findCooc_slotSource hnew
  have hv := view_recordPair_fresh hsrc (hidx ▸ hi) hnew' (show (popSlot _).relate slot = _ from hr)
  rwa [hterm] at hv

theorem Inv.addPair_ok (h : Inv s) (hm : s.mNoMemory = false) {hashI : UInt32}
    (hi : hashI ∈ s.mTermIndex) (hashJ : UInt32) (ord : Order) :
    ∃ s', s.addPair hashI hashJ .ok ord = .ok s' ∧ s'.mNoMemory = false ∧
      s'.view = s.view.bump .next hashI hashJ := by
  have hstep := h.addPair_step hashI hashJ .ok ord
  generalize hr : s.addPair hashI hashJ .ok ord = r at hstep
  cases hstep with
  | bump slot found => exact ⟨_, rfl, hm, view_bump h hi found⟩
  | append new memory => exact ⟨_, rfl, hm, view_append h hi new⟩
  | reuse _ _ full => simp [hm] at full
  | fail _ full => simp [hm] at full

-- ---------------------------------------------------------------------------
-- A line
-- ---------------------------------------------------------------------------

def hashPairs (hashValues : List UInt32) : List (UInt32 × UInt32) :=
  (positions hashValues.length).map fun p => (hashValues.getD p.1 0, hashValues.getD p.2 0)

theorem nodup_positions (n : Nat) : (positions n).Nodup := by
  refine List.nodup_flatMap.mpr ⟨fun i _ => ?_, ?_⟩
  · exact (List.nodup_range.filter _).map fun j j' he => (Prod.mk.inj he).2
  · refine List.nodup_range.imp fun {i i'} hne p hp hp' => ?_
    obtain ⟨j, -, rfl⟩ := List.mem_map.mp hp
    obtain ⟨j', -, he⟩ := List.mem_map.mp hp'
    exact hne (Prod.mk.inj he).1.symm

theorem mem_hashPairs {hashValues : List UInt32} (hd : hashValues.Nodup) {a b : UInt32} :
    (a, b) ∈ hashPairs hashValues ↔ a ∈ hashValues ∧ b ∈ hashValues ∧ a ≠ b := by
  constructor
  · intro h
    obtain ⟨⟨i, j⟩, hp, he⟩ := List.mem_map.mp h
    obtain ⟨hi, hj, hij⟩ := mem_positions.mp hp
    rw [List.getD_eq_getElem _ _ hi, List.getD_eq_getElem _ _ hj] at he
    obtain ⟨rfl, rfl⟩ := Prod.mk.inj he
    exact ⟨List.getElem_mem hi, List.getElem_mem hj, fun hc => hij ((hd.getElem_inj_iff).mp hc)⟩
  · rintro ⟨ha, hb, hab⟩
    obtain ⟨i, hi, rfl⟩ := List.mem_iff_getElem.mp ha
    obtain ⟨j, hj, rfl⟩ := List.mem_iff_getElem.mp hb
    have hij : i ≠ j := fun hc => hab (by simp [hc])
    refine List.mem_map.mpr ⟨(i, j), mem_positions.mpr ⟨hi, hj, hij⟩, ?_⟩
    rw [List.getD_eq_getElem _ _ hi, List.getD_eq_getElem _ _ hj]

theorem nodup_hashPairs {hashValues : List UInt32} (hd : hashValues.Nodup) :
    (hashPairs hashValues).Nodup := by
  refine (nodup_positions _).map_on ?_
  rintro ⟨i, j⟩ hp ⟨i', j'⟩ hp' he
  obtain ⟨hi, hj, -⟩ := mem_positions.mp hp
  obtain ⟨hi', hj', -⟩ := mem_positions.mp hp'
  rw [List.getD_eq_getElem _ _ hi, List.getD_eq_getElem _ _ hj, List.getD_eq_getElem _ _ hi',
    List.getD_eq_getElem _ _ hj', Prod.mk.injEq, hd.getElem_inj_iff, hd.getElem_inj_iff] at he
  exact Prod.ext he.1 he.2

variable (hashlittle : List UInt8 → UInt32)

theorem view_recordTerm (h : Inv s) (term : List UInt8) :
    (s.recordTerm hashlittle term).view =
      s.view.record TermData.again (TermData.new term) (hashlittle term) := by
  cases hl : s.mTermIndex.lookup (hashlittle term) with
  | some i =>
    obtain ⟨t, ht⟩ : ∃ t, s.mTermInfo[i]? = some t :=
      ⟨_, List.getElem?_eq_getElem ((h.index i).mpr ⟨_, hl⟩)⟩
    rw [recordTerm_of_some hashlittle hl]
    refine (h.view_update ?_ hl fun j hj => ?_).trans ?_
    · rfl
    · rw [modifyTerm, List.getElem?_modify_ne _ _ (Ne.symm hj)]
      rfl
    · rw [Index.record, view_of_lookup hl, ht, modifyTerm, List.getElem?_modify_eq, ht]
      rfl
  | none =>
    rw [recordTerm_of_none hashlittle hl]
    funext hash
    by_cases he : hash = hashlittle term
    · subst he
      have hnone : s.view (hashlittle term) = none :=
        (view_eq_none h).mpr (AList.lookup_eq_none.mp hl)
      simp [State.view, Index.record, hl, ← h.size, State.entry, TermData.new]
    · rw [Index.record, Function.update_of_ne he]
      simp only [State.view, AList.lookup_insert_ne he]
      cases hl' : s.mTermIndex.lookup hash with
      | none => rfl
      | some i =>
        have hlt : i < s.mTermInfo.length := (h.index i).mpr ⟨_, hl'⟩
        rw [Option.bind_some, List.getElem?_append_left hlt]
        rfl

/-- The data a line gives to a new term: those of the first of its terms with
the hash. -/
def newData (terms : List (List UInt8)) (hash : UInt32) : TermData :=
  TermData.new ((terms.find? fun term => hashlittle term = hash).getD [])

theorem newData_concat_of_mem {terms : List (List UInt8)} {hash : UInt32}
    (hm : hash ∈ terms.map hashlittle) (term : List UInt8) :
    newData hashlittle (terms ++ [term]) hash = newData hashlittle terms hash := by
  obtain ⟨t, ht, he⟩ := List.mem_map.mp hm
  have hs : (terms.find? fun term => hashlittle term = hash).isSome :=
    List.find?_isSome.mpr ⟨t, ht, by simpa using he⟩
  obtain ⟨x, hx⟩ := Option.isSome_iff_exists.mp hs
  simp [newData, List.find?_append, hx]

theorem newData_concat_of_not_mem {terms : List (List UInt8)} {term : List UInt8}
    (hm : hashlittle term ∉ terms.map hashlittle) :
    newData hashlittle (terms ++ [term]) (hashlittle term) = TermData.new term := by
  have hn : (terms.find? fun t => hashlittle t = hashlittle term) = none :=
    List.find?_eq_none.mpr fun t ht he =>
      hm (List.mem_map.mpr ⟨t, ht, by simpa using he⟩)
  simp [newData, List.find?_append, hn]

theorem scanTerms_concat (terms : List (List UInt8)) (term : List UInt8) :
    s.scanTerms hashlittle (terms ++ [term]) =
      scanTerm hashlittle (s.scanTerms hashlittle terms) term := by
  simp [scanTerms, List.foldl_append]

theorem mem_scanTerms {terms : List (List UInt8)} {hash : UInt32} :
    hash ∈ (s.scanTerms hashlittle terms).2 ↔ hash ∈ terms.map hashlittle := by
  induction terms using List.reverseRecOn with
  | nil => simp [scanTerms]
  | append_singleton terms term ih =>
    rw [scanTerms_concat, scanTerm, List.map_append, List.mem_append]
    split
    · rename_i hm
      rw [ih]
      exact ⟨.inl, fun h => h.elim id fun h => by
        rw [List.map_singleton, List.mem_singleton] at h
        exact h ▸ ih.mp (h ▸ hm)⟩
    · rw [List.mem_append, ih]
      rfl

theorem view_scanTerms (h : Inv s) (terms : List (List UInt8)) (hash : UInt32) :
    (s.scanTerms hashlittle terms).1.view hash =
      if hash ∈ terms.map hashlittle then
        s.view.record TermData.again (newData hashlittle terms hash) hash hash
      else s.view hash := by
  induction terms using List.reverseRecOn with
  | nil => rfl
  | append_singleton terms term ih =>
    rw [scanTerms_concat, scanTerm]
    have hmem : hashlittle term ∈ (s.scanTerms hashlittle terms).2 ↔
        hashlittle term ∈ terms.map hashlittle := mem_scanTerms hashlittle
    by_cases hm : hashlittle term ∈ terms.map hashlittle
    · rw [if_pos (hmem.mpr hm), ih]
      by_cases hh : hash ∈ terms.map hashlittle
      · rw [if_pos hh, if_pos (by simp only [List.map_append, List.mem_append, hh, true_or]),
          newData_concat_of_mem hashlittle hh]
      · have hne : hash ∉ (terms ++ [term]).map hashlittle := by
          rw [List.map_append, List.mem_append, List.map_singleton, List.mem_singleton]
          exact fun hc => hc.elim hh fun he => hh (he ▸ hm)
        rw [if_neg hh, if_neg hne]
    · rw [if_neg (mt hmem.mp hm)]
      simp only [view_recordTerm hashlittle (h.scanTerms hashlittle terms).1]
      by_cases he : hash = hashlittle term
      · subst he
        rw [if_pos (by simp), newData_concat_of_not_mem hashlittle hm]
        simp only [Index.record, Function.update_self, ih, if_neg hm]
      · rw [Index.record, Function.update_of_ne he, ih, List.map_append]
        by_cases hh : hash ∈ terms.map hashlittle
        · rw [if_pos hh, if_pos (List.mem_append_left _ hh), newData_concat_of_mem hashlittle hh]
        · have hne : hash ∉ terms.map hashlittle ++ [term].map hashlittle := by
            rw [List.mem_append, List.map_singleton, List.mem_singleton]
            exact fun hc => hc.elim hh he
          rw [if_neg hh, if_neg hne]

theorem Recorded.of_sameTerms {s' : State} {hashValues : List UInt32} (h : Recorded s hashValues)
    (hs : SameTerms s s') : Recorded s' hashValues :=
  ⟨h.nodup, fun hash hm => hs.termIndex ▸ h.mem hash hm⟩

omit hashlittle in
theorem Inv.foldlM_ok (h : Inv s) (hm : s.mNoMemory = false) {hashValues : List UInt32}
    (hrec : Recorded s hashValues) (ord : Order) {ps : List (Nat × Nat)}
    (hps : ∀ p ∈ ps, p ∈ positions hashValues.length) :
    ∃ s', ps.foldlM (fun s p =>
          s.addPair (hashValues.getD p.1 0) (hashValues.getD p.2 0) .ok ord) s = .ok s' ∧
      SameTerms s s' ∧ s'.mNoMemory = false ∧
      s'.view = (ps.map fun p => (hashValues.getD p.1 0, hashValues.getD p.2 0)).foldl
        (fun v p => v.bump .next p.1 p.2) s.view := by
  induction ps generalizing s with
  | nil => exact ⟨s, rfl, ⟨rfl, rfl, rfl⟩, hm, rfl⟩
  | cons p ps ih =>
    obtain ⟨hi, hj, hij⟩ := hrec.pair (hps p (by simp))
    obtain ⟨s₁, hs₁, hm₁, hv₁⟩ := h.addPair_ok hm hi (hashValues.getD p.2 0) ord
    have hstep := h.addPair_step (hashValues.getD p.1 0) (hashValues.getD p.2 0) .ok ord
    have hinv := (hstep.inv h hi hj hij).1
    have hsame := hstep.sameTerms
    rw [hs₁] at hinv hsame
    obtain ⟨s₂, hs₂, hsame₂, hm₂, hv₂⟩ :=
      ih hinv hm₁ (hrec.of_sameTerms hsame) fun q hq => hps q (by simp [hq])
    refine ⟨s₂, ?_, hsame.trans hsame₂, hm₂, ?_⟩
    · rw [List.foldlM_cons, hs₁]
      exact hs₂
    · rw [hv₂, List.map_cons, List.foldl_cons, ← hv₁]
      rfl

theorem scanTerms_weiboNum (terms : List (List UInt8)) :
    (s.scanTerms hashlittle terms).1.total.weiboNum = s.total.weiboNum := by
  induction terms using List.reverseRecOn with
  | nil => rfl
  | append_singleton terms term ih =>
    rw [scanTerms_concat, scanTerm]
    split
    · exact ih
    · rw [← ih, recordTerm]
      split <;> rfl

theorem recordTerm_memory (term : List UInt8) :
    (s.recordTerm hashlittle term).mNoMemory = s.mNoMemory := by
  cases hl : s.mTermIndex.lookup (hashlittle term) with
  | none => rw [recordTerm_of_none hashlittle hl]
  | some i =>
    rw [recordTerm_of_some hashlittle hl]
    rfl

theorem scanTerms_memory (terms : List (List UInt8)) :
    (s.scanTerms hashlittle terms).1.mNoMemory = s.mNoMemory := by
  induction terms using List.reverseRecOn with
  | nil => rfl
  | append_singleton terms term ih =>
    rw [scanTerms_concat, scanTerm]
    split
    · exact ih
    · exact (recordTerm_memory hashlittle term).trans ih

/-- While memory lasts a line is added to the view. -/
theorem Inv.indexTerms_ok (h : Inv s) (hm : s.mNoMemory = false) (terms : List (List UInt8))
    (ord : Order) :
    (s.indexTerms hashlittle terms (fun _ => .ok) ord).mNoMemory = false ∧
      (s.indexTerms hashlittle terms (fun _ => .ok) ord).total.weiboNum =
        s.total.weiboNum + 1 ∧
      (s.indexTerms hashlittle terms (fun _ => .ok) ord).view =
        s.view.addLine .next TermData.again (newData hashlittle terms) (terms.map hashlittle) := by
  obtain ⟨hs, hrec⟩ := h.scanTerms hashlittle terms
  obtain ⟨s', hs', hsame, hm', hv⟩ :=
    hs.foldlM_ok ((scanTerms_memory hashlittle terms).trans hm) hrec ord fun p hp => hp
  have hcooc : (s.scanTerms hashlittle terms).1.addCooc (s.scanTerms hashlittle terms).2
      (fun _ => .ok) ord = .ok s' := hs'
  have hindex : s.indexTerms hashlittle terms (fun _ => .ok) ord =
      { s' with total := { s'.total with weiboNum := s'.total.weiboNum + 1 } } := by
    simp only [State.indexTerms, hcooc]
    rfl
  rw [hindex]
  refine ⟨hm', ?_, ?_⟩
  · show s'.total.weiboNum + 1 = _
    rw [hsame.weiboNum, scanTerms_weiboNum]
  · have hv : s'.view = (hashPairs (s.scanTerms hashlittle terms).2).foldl
        (fun v p => v.bump .next p.1 p.2) (s.scanTerms hashlittle terms).1.view := hv
    refine hv.trans ?_
    funext a
    rw [foldl_bump _ (nodup_hashPairs hrec.nodup), view_scanTerms hashlittle h, Index.addLine]
    simp only [mem_hashPairs hrec.nodup, mem_scanTerms]
    by_cases ha : a ∈ terms.map hashlittle
    · simp only [ha, if_true, true_and, ne_comm]
    · simp [ha]

end

end TextMining.WordNet
