import TextMining.WordNet.TermsProcessor
import Mathlib.Data.List.GetD

/-!
# The representation invariant of the index

`Inv` holds of the empty state and is kept by every call, whichever
allocations fail and in whatever order the maps are visited.
-/

namespace TextMining.WordNet

open State

structure Inv (s : State) : Prop where
  /-- The indices in `mTermIndex` are those of `mTermInfo`. -/
  index : ∀ i, i < s.mTermInfo.length ↔ ∃ hash, s.mTermIndex.lookup hash = some i
  indexInj : ∀ hash hash' i, s.mTermIndex.lookup hash = some i →
    s.mTermIndex.lookup hash' = some i → hash = hash'
  size : s.mTermInfo.length = s.total.termNum
  key : ∀ t ∈ s.mTermInfo, ∀ hash ∈ t.coocTerm, hash ∈ s.mTermIndex
  /-- No term is related to itself. -/
  own : ∀ i t hash, s.mTermInfo[i]? = some t → s.mTermIndex.lookup hash = some i →
    hash ∉ t.coocTerm
  relateNum : ∀ t ∈ s.mTermInfo, t.relateTermNum.toNat = t.coocTerm.size
  slots : (s.usedSlots ++ s.mRelateIndexSlot).Nodup
  bound : ∀ slot ∈ s.usedSlots ++ s.mRelateIndexSlot, slot < s.mRelateInfo.length

theorem inv_empty : Inv State.empty where
  index := by simp [State.empty]
  indexInj := by simp [State.empty]
  size := rfl
  key := by simp [State.empty]
  own := by simp [State.empty]
  relateNum := by simp [State.empty]
  slots := by simp [State.empty, usedSlots]
  bound := by simp [State.empty, usedSlots]

-- ---------------------------------------------------------------------------
-- Lists
-- ---------------------------------------------------------------------------

theorem mem_modify {α : Type*} {l : List α} {i : Nat} {f : α → α} {b : α} (h : b ∈ l.modify i f) :
    b ∈ l ∨ ∃ a, l[i]? = some a ∧ b = f a := by
  obtain ⟨j, hj⟩ := List.mem_iff_getElem?.mp h
  by_cases hij : i = j
  · subst hij
    rw [List.getElem?_modify_eq] at hj
    obtain ⟨a, ha, rfl⟩ := Option.map_eq_some_iff.mp hj
    exact .inr ⟨a, ha, rfl⟩
  · rw [List.getElem?_modify_ne f l hij] at hj
    exact .inl (List.mem_of_getElem? hj)

theorem flatMap_modify_perm {α β : Type*} {l : List α} {i : Nat} {f : α → α} {g : α → List β}
    {a : α} (added : List β) (h : l[i]? = some a) (hg : (g (f a)).Perm (added ++ g a)) :
    ((l.modify i f).flatMap g).Perm (added ++ l.flatMap g) := by
  induction l generalizing i with
  | nil => simp at h
  | cons b l ih =>
    cases i with
    | zero =>
      obtain rfl : b = a := by simpa using h
      simpa [List.flatMap_cons] using hg.append_right (l.flatMap g)
    | succ i =>
      have hp := (ih (by simpa using h)).append_left (g b)
      simp only [List.modify_succ_cons, List.flatMap_cons]
      refine hp.trans ?_
      rw [← List.append_assoc, ← List.append_assoc]
      exact List.perm_append_comm.append_right _

theorem forall₂_getElem? {α β : Type*} {r : α → β → Prop} {l : List α} {l' : List β}
    (h : List.Forall₂ r l l') {i : Nat} {b : β} (hb : l'[i]? = some b) :
    ∃ a, l[i]? = some a ∧ r a b := by
  obtain ⟨hi', rfl⟩ := List.getElem?_eq_some_iff.mp hb
  have hi : i < l.length := h.length_eq ▸ hi'
  exact ⟨l[i], List.getElem?_eq_getElem hi, (List.forall₂_iff_get.mp h).2 i hi hi'⟩

-- ---------------------------------------------------------------------------
-- Terms and slots
-- ---------------------------------------------------------------------------

section
variable {s : State}

theorem Inv.term (h : Inv s) {hash : UInt32} (hm : hash ∈ s.mTermIndex) :
    s.mTermIndex.lookup hash = some (s.termIndex hash) ∧
      ∃ t, s.mTermInfo[s.termIndex hash]? = some t := by
  obtain ⟨i, hi⟩ := HashMap.exists_of_mem hm
  have he : s.termIndex hash = i := by rw [termIndex, hi, Option.getD_some]
  have hlt : i < s.mTermInfo.length := (h.index i).mpr ⟨hash, hi⟩
  rw [he]
  exact ⟨hi, _, List.getElem?_eq_getElem hlt⟩

theorem Inv.size_lt (h : Inv s) {i : Nat} {t : TermInfo} (ht : s.mTermInfo[i]? = some t) :
    t.coocTerm.size < 2 ^ 32 := by
  obtain ⟨hash, hh⟩ := (h.index i).mp (List.getElem?_eq_some_iff.mp ht).1
  exact HashMap.size_lt_of_missing (h.own i t hash ht hh)

theorem mem_usedSlots {slot : Nat} :
    slot ∈ s.usedSlots ↔ ∃ t ∈ s.mTermInfo, ∃ hash, t.coocTerm.lookup hash = some slot := by
  simp [usedSlots, HashMap.mem_values]

theorem usedSlots_setCooc {i : Nat} {t : TermInfo} (ht : s.mTermInfo[i]? = some t) {hash : UInt32}
    (hn : hash ∉ t.coocTerm) (slot : Nat) :
    (s.setCooc i hash slot).usedSlots.Perm (slot :: s.usedSlots) :=
  flatMap_modify_perm [slot] ht (by simp [HashMap.values_insert slot hn])

theorem usedSlots_countRelate (i : Nat) : (s.countRelate i).usedSlots = s.usedSlots := by
  simp only [usedSlots, countRelate, modifyTerm]
  induction s.mTermInfo generalizing i with
  | nil => simp
  | cons t ts ih => cases i <;> simp [ih]

end

-- ---------------------------------------------------------------------------
-- Pruning
-- ---------------------------------------------------------------------------

structure Swept (t t' : TermInfo) : Prop where
  termstr : t'.termstr = t.termstr
  dfHistory : t'.dfHistory = t.dfHistory
  dfNow : t'.dfNow = t.dfNow
  sub : ∀ hash slot, t'.coocTerm.lookup hash = some slot → t.coocTerm.lookup hash = some slot
  relateNum : t.coocTerm.size < 2 ^ 32 → t.relateTermNum.toNat = t.coocTerm.size →
    t'.relateTermNum.toNat = t'.coocTerm.size

theorem Swept.refl (t : TermInfo) : Swept t t := ⟨rfl, rfl, rfl, fun _ _ h => h, fun _ h => h⟩

section
variable (ord : Order) (skip : TermInfo → Bool)
  (keep : TermInfo → List (Σ _ : UInt32, Nat) → Nat → (Σ _ : UInt32, Nat) → Bool)

theorem sweep_term (i : Nat) (t : TermInfo) (free : List Nat) :
    let order := ord.walk i t.coocTerm
    let r := HashMap.sweep (keep t order) order t.coocTerm 0 free
    Swept t { t with coocTerm := r.1, relateTermNum := UInt32.ofNat r.2.1 } ∧
      (r.1.values ++ r.2.2).Perm (t.coocTerm.values ++ free) := by
  intro order r
  have hord : order.Perm t.coocTerm.entries := ord.perm i t.coocTerm
  obtain ⟨kept, erased, hparts, hkept, hn, hfree⟩ :=
    HashMap.sweep_spec (keep t order) [] hord.symm 0 free
  have hparts := hparts.trans hord
  rw [List.nil_append] at hkept
  refine ⟨⟨rfl, rfl, rfl, ?_, ?_⟩, ?_⟩
  · intro hash slot hl
    have hm : (⟨hash, slot⟩ : Σ _ : UInt32, Nat) ∈ kept := hkept.mem_iff.mp (AList.mem_lookup_iff.mp hl)
    exact AList.mem_lookup_iff.mpr (hparts.mem_iff.mp (List.mem_append_left _ hm))
  · intro hlt _
    have hle : kept.length ≤ t.coocTerm.size := by
      have hl := hparts.length_eq
      rw [List.length_append] at hl
      simp only [HashMap.size]
      omega
    have hr : r.2.1 = kept.length := by rw [hn, Nat.zero_add]
    simp only [HashMap.size] at hle hlt ⊢
    rw [hkept.length_eq, hr, UInt32.toNat_ofNat', Nat.mod_eq_of_lt (by omega)]
  · have hv : r.1.values.Perm (kept.map fun e => e.2) := HashMap.values_perm hkept
    have hall : (kept.map (fun e => e.2) ++ erased.map fun e => e.2).Perm t.coocTerm.values := by
      simpa using (HashMap.values_perm hparts.symm).symm
    have hr : r.2.2 = free ++ erased.map fun e => e.2 := hfree
    rw [hr]
    refine (hv.append List.perm_append_comm).trans ?_
    rw [← List.append_assoc]
    exact hall.append_right free

theorem sweepTerms_spec (i : Nat) (ts : List TermInfo) (free : List Nat) :
    List.Forall₂ Swept ts (sweepTerms ord skip keep i ts free).1 ∧
      ((sweepTerms ord skip keep i ts free).1.flatMap (fun t => t.coocTerm.values) ++
        (sweepTerms ord skip keep i ts free).2).Perm
        (ts.flatMap (fun t => t.coocTerm.values) ++ free) := by
  induction ts generalizing i free with
  | nil => exact ⟨.nil, .refl _⟩
  | cons t ts ih =>
    unfold sweepTerms
    split
    · obtain ⟨hts, hp⟩ := ih (i + 1) free
      refine ⟨.cons (.refl t) hts, ?_⟩
      simpa only [List.flatMap_cons, List.append_assoc] using hp.append_left t.coocTerm.values
    · obtain ⟨ht, hp⟩ := sweep_term ord keep i t free
      set r := HashMap.sweep (keep t (ord.walk i t.coocTerm)) (ord.walk i t.coocTerm) t.coocTerm 0
        free with hr
      obtain ⟨hts, hps⟩ := ih (i + 1) r.2.2
      refine ⟨.cons ht hts, ?_⟩
      simp only [List.flatMap_cons, List.append_assoc]
      refine (hps.append_left r.1.values).trans ?_
      rw [← List.append_assoc]
      refine (List.perm_append_comm.append_right _).trans ?_
      rw [List.append_assoc]
      refine (hp.append_left _).trans ?_
      rw [← List.append_assoc]
      refine (List.perm_append_comm.append_right _).trans ?_
      rw [List.append_assoc]

theorem Inv.sweepIndex {s : State} (h : Inv s) : Inv (s.sweepIndex ord skip keep) := by
  obtain ⟨hts, hp⟩ := sweepTerms_spec ord skip keep 0 s.mTermInfo s.mRelateIndexSlot
  have hlen := hts.length_eq
  have hget : ∀ {j : Nat} {t' : TermInfo}, (s.sweepIndex ord skip keep).mTermInfo[j]? = some t' →
      ∃ t, s.mTermInfo[j]? = some t ∧ Swept t t' := fun ht' => forall₂_getElem? hts ht'
  have hsub : ∀ {t t' : TermInfo} {hash}, Swept t t' → hash ∈ t'.coocTerm → hash ∈ t.coocTerm := by
    intro t t' hash hsw hm
    obtain ⟨slot, hslot⟩ := HashMap.exists_of_mem hm
    exact HashMap.mem_of_lookup (hsw.sub _ _ hslot)
  refine ⟨?_, h.indexInj, hlen.symm.trans h.size, ?_, ?_, ?_, hp.nodup_iff.mpr h.slots, ?_⟩
  · intro i
    exact hlen ▸ h.index i
  · intro t' ht' hash hm
    obtain ⟨j, hj⟩ := List.mem_iff_getElem?.mp ht'
    obtain ⟨t, ht, hsw⟩ := hget hj
    exact h.key t (List.mem_of_getElem? ht) hash (hsub hsw hm)
  · intro i t' hash ht' hi hm
    obtain ⟨t, ht, hsw⟩ := hget ht'
    exact h.own i t hash ht hi (hsub hsw hm)
  · intro t' ht'
    obtain ⟨j, hj⟩ := List.mem_iff_getElem?.mp ht'
    obtain ⟨t, ht, hsw⟩ := hget hj
    exact hsw.relateNum (h.size_lt ht) (h.relateNum t (List.mem_of_getElem? ht))
  · intro slot hslot
    exact h.bound slot (hp.mem_iff.mp hslot)

end

-- ---------------------------------------------------------------------------
-- Storing a pair
-- ---------------------------------------------------------------------------

def TermInfo.addCooc (t : TermInfo) (hash : UInt32) (slot : Nat) : TermInfo :=
  { t with coocTerm := t.coocTerm.insert hash slot, relateTermNum := t.relateTermNum + 1 }

section
variable {s : State}

theorem setCooc_countRelate (i : Nat) (hash : UInt32) (slot : Nat) :
    (s.setCooc i hash slot).countRelate i =
      { s with
        mTermInfo := s.mTermInfo.modify i fun t => t.addCooc hash slot
        total := { s.total with relateTermNum := s.total.relateTermNum + 1 } } := by
  simp [setCooc, countRelate, modifyTerm, List.modify_modify_eq, Function.comp_def,
    TermInfo.addCooc]

theorem findCooc_eq_none {i : Nat} {t : TermInfo} (ht : s.mTermInfo[i]? = some t) {hash : UInt32} :
    s.findCooc i hash = none ↔ hash ∉ t.coocTerm := by
  rw [findCooc, ht, Option.bind_some, AList.lookup_eq_none]

theorem TermInfo.addCooc_relateNum {t : TermInfo} {hash : UInt32} (hn : hash ∉ t.coocTerm)
    {slot : Nat} (hmax : (t.addCooc hash slot).coocTerm.size < 2 ^ 32)
    (hr : t.relateTermNum.toNat = t.coocTerm.size) :
    (t.addCooc hash slot).relateTermNum.toNat = (t.addCooc hash slot).coocTerm.size := by
  simp only [TermInfo.addCooc, HashMap.size_insert slot hn, UInt32.toNat_add, hr] at hmax ⊢
  exact Nat.mod_eq_of_lt hmax

theorem Inv.recordPair (h : Inv s) {hashI hashJ : UInt32} (hi : hashI ∈ s.mTermIndex)
    (hj : hashJ ∈ s.mTermIndex) (hij : hashI ≠ hashJ)
    (hnew : s.findCooc (s.termIndex hashI) hashJ = none) {slot : Nat}
    (hlt : slot < s.mRelateInfo.length) (hfresh : slot ∉ s.usedSlots ++ s.mRelateIndexSlot) :
    Inv ((s.setCooc (s.termIndex hashI) hashJ slot).countRelate (s.termIndex hashI)) := by
  obtain ⟨hidx, t, ht⟩ := h.term hi
  have hn : hashJ ∉ t.coocTerm := (findCooc_eq_none ht).mp hnew
  have hused : ((s.setCooc (s.termIndex hashI) hashJ slot).countRelate
      (s.termIndex hashI)).usedSlots.Perm (slot :: s.usedSlots) := by
    rw [usedSlots_countRelate]
    exact usedSlots_setCooc ht hn slot
  have hslots := hused.append_right s.mRelateIndexSlot
  rw [setCooc_countRelate] at hused hslots ⊢
  have hown : hashI ∉ (t.addCooc hashJ slot).coocTerm := by
    intro hm
    rcases (AList.mem_insert _).mp hm with rfl | hm
    · exact hij rfl
    · exact h.own _ t hashI ht hidx hm
  refine ⟨?_, h.indexInj, ?_, ?_, ?_, ?_, ?_, ?_⟩
  · intro i
    rw [List.length_modify]
    exact h.index i
  · rw [List.length_modify]
    exact h.size
  · intro t' ht' hash hm
    rcases mem_modify ht' with ht' | ⟨t₀, ht₀, rfl⟩
    · exact h.key t' ht' hash hm
    · rcases (AList.mem_insert _).mp hm with rfl | hm
      · exact hj
      · exact h.key t₀ (List.mem_of_getElem? ht₀) hash hm
  · intro i t' hash ht' hi' hm
    by_cases he : s.termIndex hashI = i
    · subst he
      obtain rfl : hash = hashI := h.indexInj _ _ _ hi' hidx
      rw [List.getElem?_modify_eq, ht, Option.map_eq_map, Option.map_some, Option.some.injEq] at ht'
      exact hown (ht' ▸ hm)
    · rw [List.getElem?_modify_ne _ _ he] at ht'
      exact h.own i t' hash ht' hi' hm
  · intro t' ht'
    rcases mem_modify ht' with ht' | ⟨t₀, ht₀, rfl⟩
    · exact h.relateNum t' ht'
    · obtain rfl : t = t₀ := Option.some.inj (ht.symm.trans ht₀)
      -- the term's own hash is still missing from its map
      exact TermInfo.addCooc_relateNum hn (HashMap.size_lt_of_missing hown)
        (h.relateNum t (List.mem_of_getElem? ht))
  · refine hslots.nodup_iff.mpr ?_
    exact List.nodup_cons.mpr ⟨hfresh, h.slots⟩
  · intro slot' hm
    rcases List.mem_cons.mp (hslots.mem_iff.mp hm) with rfl | hm
    · exact hlt
    · exact h.bound slot' hm

theorem Inv.pushRelate (h : Inv s) : Inv s.pushRelate :=
  { h with
    bound := fun slot hm => by
      have := h.bound slot hm
      simp only [State.pushRelate, List.length_append, List.length_singleton]
      omega }

theorem Inv.modifyRelate (h : Inv s) (slot : Nat) (f : RelateTermInfo → RelateTermInfo) :
    Inv (s.modifyRelate slot f) :=
  { h with
    bound := fun slot' hm => by
      rw [State.modifyRelate, List.length_modify]
      exact h.bound slot' hm }

theorem Inv.outOfMemory (h : Inv s) (ord : Order) : Inv (s.outOfMemory ord) :=
  { h.sweepIndex ord _ _ with }

end

-- ---------------------------------------------------------------------------
-- The cases of a step
-- ---------------------------------------------------------------------------

/-- The state in which the free list is asked for a slot. -/
def slotSource (s : State) (alloc : Alloc) (ord : Order) : State :=
  if s.mNoMemory then s
  else if alloc = .insertFails then s.pushRelate.outOfMemory ord
  else s.outOfMemory ord

def popSlot (s : State) : State := { s with mRelateIndexSlot := s.mRelateIndexSlot.dropLast }

/-- What `AddCooc` does with two different terms of a line. -/
inductive PairStep (s : State) (hashI hashJ : UInt32) (alloc : Alloc) (ord : Order) :
    Except State State → Prop
  | bump (slot : Nat) (found : s.findCooc (s.termIndex hashI) hashJ = some slot) :
    PairStep s hashI hashJ alloc ord
      (.ok (s.modifyRelate slot fun r => { r with numNow := r.numNow + 1 }))
  | append (new : s.findCooc (s.termIndex hashI) hashJ = none)
    (memory : s.mNoMemory = false ∧ alloc = .ok) :
    PairStep s hashI hashJ alloc ord
      (.ok ((s.pushRelate.setCooc (s.termIndex hashI) hashJ s.mRelateInfo.length).countRelate
        (s.termIndex hashI)))
  | reuse (slot : Nat) (new : s.findCooc (s.termIndex hashI) hashJ = none)
    (full : s.mNoMemory = true ∨ alloc ≠ .ok)
    (free : (slotSource s alloc ord).mRelateIndexSlot.getLast? = some slot) :
    PairStep s hashI hashJ alloc ord
      (.ok (((popSlot (slotSource s alloc ord)).setCooc (s.termIndex hashI) hashJ slot).countRelate
        (s.termIndex hashI)))
  | fail (new : s.findCooc (s.termIndex hashI) hashJ = none)
    (full : s.mNoMemory = true ∨ alloc ≠ .ok)
    (free : (slotSource s alloc ord).mRelateIndexSlot = []) :
    PairStep s hashI hashJ alloc ord (.error (slotSource s alloc ord))

section
variable {s : State}

theorem Inv.slotSource (h : Inv s) (alloc : Alloc) (ord : Order) : Inv (slotSource s alloc ord) := by
  unfold WordNet.slotSource
  split
  · exact h
  · split
    · exact h.pushRelate.outOfMemory ord
    · exact h.outOfMemory ord

theorem Inv.free_lt (h : Inv s) {slot : Nat} (hm : s.mRelateIndexSlot.getLast? = some slot) :
    slot < s.mRelateInfo.length :=
  h.bound slot (List.mem_append_right _ (List.mem_of_getLast? hm))

theorem Inv.used_lt (h : Inv s) {i : Nat} {hash : UInt32} {slot : Nat}
    (hf : s.findCooc i hash = some slot) : slot < s.mRelateInfo.length := by
  obtain ⟨t, ht, hl⟩ := Option.bind_eq_some_iff.mp hf
  have hm : slot ∈ s.usedSlots := mem_usedSlots.mpr ⟨t, List.mem_of_getElem? ht, hash, hl⟩
  exact h.bound slot (List.mem_append_left _ hm)

theorem reuseSlot_of_some {i slot : Nat} {hash : UInt32}
    (hf : s.mRelateIndexSlot.getLast? = some slot) :
    s.reuseSlot i hash = (some slot, (popSlot s).setCooc i hash slot) := by
  simp [reuseSlot, getIndexSlot, hf, popSlot]

theorem reuseSlot_of_none {i : Nat} {hash : UInt32} (hf : s.mRelateIndexSlot.getLast? = none) :
    s.reuseSlot i hash = (none, s) := by
  simp [reuseSlot, getIndexSlot, hf]

theorem addPair_of_some {hashI hashJ : UInt32} {slot : Nat} (alloc : Alloc) (ord : Order)
    (hf : s.findCooc (s.termIndex hashI) hashJ = some slot) :
    s.addPair hashI hashJ alloc ord =
      if slot ≥ s.mRelateInfo.length then .error s
      else .ok (s.modifyRelate slot fun r => { r with numNow := r.numNow + 1 }) := by
  simp only [addPair, hf]

theorem addPair_new {hashI hashJ : UInt32} {alloc : Alloc} {ord : Order} {slot : Nat} {s' : State}
    (hf : s.findCooc (s.termIndex hashI) hashJ = none)
    (hs : (if s.mNoMemory then s.reuseSlot (s.termIndex hashI) hashJ
      else s.appendSlot (s.termIndex hashI) hashJ alloc ord) = (some slot, s'))
    (hlt : slot < s'.mRelateInfo.length) :
    s.addPair hashI hashJ alloc ord = .ok (s'.countRelate (s.termIndex hashI)) := by
  simp only [addPair, hf, hs]
  exact if_neg (Nat.not_le.mpr hlt)

theorem addPair_full {hashI hashJ : UInt32} {alloc : Alloc} {ord : Order} {s' : State}
    (hf : s.findCooc (s.termIndex hashI) hashJ = none)
    (hs : (if s.mNoMemory then s.reuseSlot (s.termIndex hashI) hashJ
      else s.appendSlot (s.termIndex hashI) hashJ alloc ord) = (none, s')) :
    s.addPair hashI hashJ alloc ord = .error s' := by
  simp only [addPair, hf, hs]

theorem reuse_eq (hashI hashJ : UInt32) {alloc : Alloc} (ord : Order)
    (hfull : s.mNoMemory = true ∨ alloc ≠ .ok) :
    (if s.mNoMemory then s.reuseSlot (s.termIndex hashI) hashJ
      else s.appendSlot (s.termIndex hashI) hashJ alloc ord) =
        (WordNet.slotSource s alloc ord).reuseSlot (s.termIndex hashI) hashJ := by
  cases hmem : s.mNoMemory with
  | true => simp [WordNet.slotSource, hmem]
  | false =>
    cases alloc with
    | ok => simp [hmem] at hfull
    | pushFails => simp [WordNet.slotSource, hmem, appendSlot]
    | insertFails => simp [WordNet.slotSource, hmem, appendSlot]

theorem Inv.addPair_step (h : Inv s) (hashI hashJ : UInt32) (alloc : Alloc) (ord : Order) :
    PairStep s hashI hashJ alloc ord (s.addPair hashI hashJ alloc ord) := by
  cases hf : s.findCooc (s.termIndex hashI) hashJ with
  | some slot =>
    rw [addPair_of_some alloc ord hf, if_neg (Nat.not_le.mpr (h.used_lt hf))]
    exact .bump slot hf
  | none =>
    by_cases hm : s.mNoMemory = false ∧ alloc = .ok
    · obtain ⟨hmem, rfl⟩ := hm
      have hs : (if s.mNoMemory then s.reuseSlot (s.termIndex hashI) hashJ
          else s.appendSlot (s.termIndex hashI) hashJ .ok ord) = (some s.mRelateInfo.length,
            s.pushRelate.setCooc (s.termIndex hashI) hashJ s.mRelateInfo.length) := by
        simp only [hmem, Bool.false_eq_true, ↓reduceIte, appendSlot]
      rw [addPair_new hf hs (by simp [setCooc, modifyTerm, State.pushRelate])]
      exact .append hf ⟨hmem, rfl⟩
    · have hfull : s.mNoMemory = true ∨ alloc ≠ .ok := by
        cases hmem : s.mNoMemory with
        | true => exact .inl rfl
        | false => exact .inr fun ha => hm ⟨hmem, ha⟩
      cases hfree : (WordNet.slotSource s alloc ord).mRelateIndexSlot.getLast? with
      | none =>
        rw [addPair_full hf ((reuse_eq hashI hashJ ord hfull).trans (reuseSlot_of_none hfree))]
        exact .fail hf hfull (List.getLast?_eq_none_iff.mp hfree)
      | some slot =>
        rw [addPair_new hf ((reuse_eq hashI hashJ ord hfull).trans (reuseSlot_of_some hfree))
          ((h.slotSource alloc ord).free_lt hfree)]
        exact .reuse slot hf hfull hfree

end

-- ---------------------------------------------------------------------------
-- Every call keeps the invariant
-- ---------------------------------------------------------------------------

section
variable {s : State}

theorem slotSource_termIndex (alloc : Alloc) (ord : Order) :
    (slotSource s alloc ord).mTermIndex = s.mTermIndex := by
  unfold slotSource
  split
  · rfl
  · split <;> rfl

theorem termIndex_slotSource (alloc : Alloc) (ord : Order) (hash : UInt32) :
    (slotSource s alloc ord).termIndex hash = s.termIndex hash := by
  rw [termIndex, slotSource_termIndex, termIndex]

theorem Inv.popSlot (h : Inv s) : Inv (popSlot s) :=
  { h with
    slots := h.slots.sublist ((List.dropLast_sublist _).append_left _)
    bound := fun slot hm => h.bound slot
      (((List.dropLast_sublist _).append_left _).subset hm) }

theorem Inv.popped (h : Inv s) {slot : Nat} (hf : s.mRelateIndexSlot.getLast? = some slot) :
    slot ∉ (WordNet.popSlot s).usedSlots ++ (WordNet.popSlot s).mRelateIndexSlot := by
  have hs : s.mRelateIndexSlot = s.mRelateIndexSlot.dropLast ++ [slot] := by
    obtain ⟨rest, hr⟩ := List.getLast?_eq_some_iff.mp hf
    simp [hr]
  have hd := h.slots
  rw [hs, ← List.append_assoc] at hd
  intro hm
  exact (List.nodup_append.mp hd).2.2 slot hm slot (by simp) rfl

theorem findCooc_sweepIndex {ord : Order} {skip : TermInfo → Bool}
    {keep : TermInfo → List (Σ _ : UInt32, Nat) → Nat → (Σ _ : UInt32, Nat) → Bool} {i : Nat}
    {hash : UInt32} (hn : s.findCooc i hash = none) :
    (s.sweepIndex ord skip keep).findCooc i hash = none := by
  have hts := (sweepTerms_spec ord skip keep 0 s.mTermInfo s.mRelateIndexSlot).1
  cases hf : (s.sweepIndex ord skip keep).findCooc i hash with
  | none => rfl
  | some slot =>
    obtain ⟨t', ht', hl⟩ := Option.bind_eq_some_iff.mp hf
    obtain ⟨t, ht, hsw⟩ := forall₂_getElem? hts ht'
    rw [findCooc, ht, Option.bind_some, hsw.sub hash slot hl] at hn
    cases hn

theorem findCooc_slotSource {alloc : Alloc} {ord : Order} {i : Nat} {hash : UInt32}
    (hn : s.findCooc i hash = none) : (slotSource s alloc ord).findCooc i hash = none := by
  unfold slotSource
  split
  · exact hn
  · split
    · exact findCooc_sweepIndex (s := s.pushRelate) hn
    · exact findCooc_sweepIndex hn

theorem PairStep.inv (h : Inv s) {hashI hashJ : UInt32} (hi : hashI ∈ s.mTermIndex)
    (hj : hashJ ∈ s.mTermIndex) (hij : hashI ≠ hashJ) {alloc : Alloc} {ord : Order}
    {r : Except State State} (hr : PairStep s hashI hashJ alloc ord r) :
    Inv (outcome r) ∧ (outcome r).mTermIndex = s.mTermIndex := by
  cases hr with
  | bump slot found => exact ⟨h.modifyRelate _ _, rfl⟩
  | append new memory =>
    refine ⟨h.pushRelate.recordPair hi hj hij new (by simp [State.pushRelate]) ?_, rfl⟩
    intro hm
    exact Nat.lt_irrefl _ (h.bound _ hm)
  | reuse slot new full free =>
    have hs := h.slotSource alloc ord
    have hsrc : (slotSource s alloc ord).mTermIndex = s.mTermIndex := slotSource_termIndex alloc ord
    refine ⟨?_, hsrc⟩
    have hnew : (slotSource s alloc ord).findCooc ((slotSource s alloc ord).termIndex hashI) hashJ =
        none := by
      rw [termIndex_slotSource]
      exact findCooc_slotSource new
    rw [← termIndex_slotSource alloc ord]
    exact hs.popSlot.recordPair (hsrc ▸ hi) (hsrc ▸ hj) hij hnew (hs.free_lt free) (hs.popped free)
  | fail new full free => exact ⟨h.slotSource alloc ord, slotSource_termIndex alloc ord⟩

theorem outcome_foldlM {α : Type*} {P : State → Prop} {f : State → α → Except State State}
    {l : List α} (hf : ∀ s, ∀ a ∈ l, P s → P (outcome (f s a))) {s : State} (hs : P s) :
    P (outcome (l.foldlM f s)) := by
  induction l generalizing s with
  | nil => exact hs
  | cons a l ih =>
    have ha := hf s a (by simp) hs
    rw [List.foldlM_cons]
    cases he : f s a with
    | error s' =>
      rw [he] at ha
      exact ha
    | ok s' =>
      rw [he] at ha
      exact ih (fun s b hb => hf s b (by simp [hb])) ha

theorem mem_positions {n i j : Nat} : (i, j) ∈ positions n ↔ i < n ∧ j < n ∧ i ≠ j := by
  simp only [positions, List.mem_flatMap, List.mem_range, List.mem_map, List.mem_filter,
    decide_eq_true_eq, Prod.mk.injEq]
  constructor
  · rintro ⟨i', hi, j', ⟨hj, hne⟩, rfl, rfl⟩
    exact ⟨hi, hj, Ne.symm hne⟩
  · rintro ⟨hi, hj, hne⟩
    exact ⟨i, hi, j, ⟨hj, Ne.symm hne⟩, rfl, rfl⟩

structure Recorded (s : State) (hashValues : List UInt32) : Prop where
  nodup : hashValues.Nodup
  mem : ∀ hash ∈ hashValues, hash ∈ s.mTermIndex

theorem Recorded.pair {hashValues : List UInt32} (h : Recorded s hashValues) {p : Nat × Nat}
    (hp : p ∈ positions hashValues.length) :
    hashValues.getD p.1 0 ∈ s.mTermIndex ∧ hashValues.getD p.2 0 ∈ s.mTermIndex ∧
      hashValues.getD p.1 0 ≠ hashValues.getD p.2 0 := by
  obtain ⟨hi, hj, hne⟩ := mem_positions.mp hp
  rw [List.getD_eq_getElem _ _ hi, List.getD_eq_getElem _ _ hj]
  refine ⟨h.mem _ (List.getElem_mem hi), h.mem _ (List.getElem_mem hj), fun he => hne ?_⟩
  exact (h.nodup.getElem_inj_iff).mp he

theorem Inv.pairs_keep (h : Inv s) {hashValues : List UInt32} (hrec : Recorded s hashValues)
    {ps : List (Nat × Nat)} (hps : ∀ p ∈ ps, p ∈ positions hashValues.length)
    {alloc : Nat × Nat → Alloc} {ord : Order} {Q : State → Prop} (hs : Q s)
    (hQ : ∀ s' p, p ∈ positions hashValues.length → Inv s' → s'.mTermIndex = s.mTermIndex → Q s' →
      Q (outcome (s'.addPair (hashValues.getD p.1 0) (hashValues.getD p.2 0) (alloc p) ord))) :
    let s' := outcome (ps.foldlM (fun s p =>
      s.addPair (hashValues.getD p.1 0) (hashValues.getD p.2 0) (alloc p) ord) s)
    Inv s' ∧ s'.mTermIndex = s.mTermIndex ∧ Q s' := by
  refine outcome_foldlM (P := fun s' => Inv s' ∧ s'.mTermIndex = s.mTermIndex ∧ Q s') ?_ ⟨h, rfl, hs⟩
  rintro s' p hp ⟨hs', hidx, hq⟩
  obtain ⟨hi, hj, hij⟩ := hrec.pair (hps p hp)
  have hstep := (hs'.addPair_step _ _ (alloc p) ord).inv hs' (hidx ▸ hi) (hidx ▸ hj) hij
  exact ⟨hstep.1, hstep.2.trans hidx, hQ s' p (hps p hp) hs' hidx hq⟩

theorem Inv.addCooc_keeps (h : Inv s) {hashValues : List UInt32} (hrec : Recorded s hashValues)
    {alloc : Nat × Nat → Alloc} {ord : Order} {Q : State → Prop} (hs : Q s)
    (hQ : ∀ s' p, p ∈ positions hashValues.length → Inv s' → s'.mTermIndex = s.mTermIndex → Q s' →
      Q (outcome (s'.addPair (hashValues.getD p.1 0) (hashValues.getD p.2 0) (alloc p) ord))) :
    Inv (outcome (s.addCooc hashValues alloc ord)) ∧
      (outcome (s.addCooc hashValues alloc ord)).mTermIndex = s.mTermIndex ∧
      Q (outcome (s.addCooc hashValues alloc ord)) :=
  h.pairs_keep hrec (fun _ hp => hp) hs hQ

theorem Inv.addCooc (h : Inv s) {hashValues : List UInt32} (hrec : Recorded s hashValues)
    (alloc : Nat × Nat → Alloc) (ord : Order) :
    Inv (outcome (s.addCooc hashValues alloc ord)) :=
  (h.addCooc_keeps hrec (Q := fun _ => True) trivial fun _ _ _ _ _ _ => trivial).1

variable (hashlittle : List UInt8 → UInt32)

theorem recordTerm_of_none {term : List UInt8} (hn : s.mTermIndex.lookup (hashlittle term) = none) :
    s.recordTerm hashlittle term =
      { s with
        mTermIndex := s.mTermIndex.insert (hashlittle term) s.total.termNum
        mTermInfo := s.mTermInfo ++ [⟨snprintf 64 term, 0, 1, 0, ∅⟩]
        total := { s.total with termNum := s.total.termNum + 1 } } := by
  simp only [recordTerm, hn]

theorem recordTerm_of_some {term : List UInt8} {i : Nat}
    (hs : s.mTermIndex.lookup (hashlittle term) = some i) :
    s.recordTerm hashlittle term = s.modifyTerm i fun t => { t with dfNow := t.dfNow + 1 } := by
  simp only [recordTerm, hs]

theorem mem_recordTerm {term : List UInt8} {hash : UInt32} :
    hash ∈ (s.recordTerm hashlittle term).mTermIndex ↔
      hash = hashlittle term ∨ hash ∈ s.mTermIndex := by
  cases hl : s.mTermIndex.lookup (hashlittle term) with
  | none =>
    rw [recordTerm_of_none hashlittle hl]
    exact AList.mem_insert _
  | some i =>
    rw [recordTerm_of_some hashlittle hl]
    exact ⟨.inr, fun h => h.elim (fun he => he ▸ HashMap.mem_of_lookup hl) id⟩

theorem usedSlots_modifyDf (i : Nat) (f : UInt32 → UInt32) :
    (s.modifyTerm i fun t => { t with dfNow := f t.dfNow }).usedSlots = s.usedSlots := by
  simp only [usedSlots, modifyTerm]
  induction s.mTermInfo generalizing i with
  | nil => simp
  | cons t ts ih => cases i <;> simp [ih]

theorem Inv.modifyDf (h : Inv s) (i : Nat) (f : UInt32 → UInt32) :
    Inv (s.modifyTerm i fun t => { t with dfNow := f t.dfNow }) := by
  have hused := usedSlots_modifyDf (s := s) i f
  refine ⟨?_, h.indexInj, ?_, ?_, ?_, ?_, hused ▸ h.slots, hused ▸ h.bound⟩
  · intro j
    rw [modifyTerm, List.length_modify]
    exact h.index j
  · rw [modifyTerm, List.length_modify]
    exact h.size
  · intro t ht hash hm
    rcases mem_modify ht with ht | ⟨t₀, ht₀, rfl⟩
    · exact h.key t ht hash hm
    · exact h.key t₀ (List.mem_of_getElem? ht₀) hash hm
  · intro j t hash ht hj hm
    by_cases hij : i = j
    · subst hij
      rw [modifyTerm, List.getElem?_modify_eq] at ht
      obtain ⟨t₀, ht₀, rfl⟩ := Option.map_eq_some_iff.mp ht
      exact h.own i t₀ hash ht₀ hj hm
    · rw [modifyTerm, List.getElem?_modify_ne _ _ hij] at ht
      exact h.own j t hash ht hj hm
  · intro t ht
    rcases mem_modify ht with ht | ⟨t₀, ht₀, rfl⟩
    · exact h.relateNum t ht
    · exact h.relateNum t₀ (List.mem_of_getElem? ht₀)

theorem Inv.recordTerm (h : Inv s) (term : List UInt8) : Inv (s.recordTerm hashlittle term) := by
  cases hl : s.mTermIndex.lookup (hashlittle term) with
  | some i =>
    rw [recordTerm_of_some hashlittle hl]
    exact h.modifyDf i (· + 1)
  | none =>
    have hnew : hashlittle term ∉ s.mTermIndex := AList.lookup_eq_none.mp hl
    have hlookup : ∀ hash i, (s.mTermIndex.insert (hashlittle term) s.total.termNum).lookup hash =
        some i ↔ (hash = hashlittle term ∧ i = s.mTermInfo.length) ∨
          s.mTermIndex.lookup hash = some i := by
      intro hash i
      by_cases he : hash = hashlittle term
      · subst he
        rw [AList.lookup_insert, hl, h.size]
        simp [eq_comm]
      · rw [AList.lookup_insert_ne he]
        simp [he]
    have hold : ∀ {hash i}, s.mTermIndex.lookup hash = some i → i < s.mTermInfo.length :=
      fun hh => (h.index _).mpr ⟨_, hh⟩
    have hused : (s.recordTerm hashlittle term).usedSlots = s.usedSlots := by
      simp [recordTerm_of_none hashlittle hl, usedSlots]
    rw [recordTerm_of_none hashlittle hl] at hused ⊢
    refine ⟨?_, ?_, ?_, ?_, ?_, ?_, hused ▸ h.slots, hused ▸ h.bound⟩
    · intro i
      simp only [hlookup, List.length_append, List.length_singleton, Nat.lt_succ_iff_lt_or_eq,
        exists_or, h.index i, exists_and_right, exists_eq, true_and]
      exact or_comm
    · intro hash hash' i hh hh'
      rcases (hlookup _ _).mp hh with ⟨rfl, rfl⟩ | hh
      · rcases (hlookup _ _).mp hh' with ⟨rfl, -⟩ | hh'
        · rfl
        · exact absurd (hold hh') (Nat.lt_irrefl _)
      · rcases (hlookup _ _).mp hh' with ⟨rfl, rfl⟩ | hh'
        · exact absurd (hold hh) (Nat.lt_irrefl _)
        · exact h.indexInj _ _ _ hh hh'
    · simp [h.size]
    · intro t ht hash hm
      rcases List.mem_append.mp ht with ht | ht
      · exact (AList.mem_insert _).mpr (.inr (h.key t ht hash hm))
      · rw [List.mem_singleton.mp ht] at hm
        exact absurd hm (AList.notMem_empty hash)
    · intro i t hash ht hi hm
      rw [List.getElem?_append] at ht
      split at ht
      · rename_i hlt
        rcases (hlookup _ _).mp hi with ⟨-, rfl⟩ | hi
        · exact Nat.lt_irrefl _ hlt
        · exact h.own i t hash ht hi hm
      · rw [List.getElem?_singleton] at ht
        split at ht
        · rw [← Option.some.inj ht] at hm
          exact AList.notMem_empty hash hm
        · cases ht
    · intro t ht
      rcases List.mem_append.mp ht with ht | ht
      · exact h.relateNum t ht
      · rw [List.mem_singleton.mp ht]
        rfl

theorem Inv.scanTerms (h : Inv s) (terms : List (List UInt8)) :
    Inv (s.scanTerms hashlittle terms).1 ∧
      Recorded (s.scanTerms hashlittle terms).1 (s.scanTerms hashlittle terms).2 := by
  have hrun : ∀ acc : State × List UInt32, Inv acc.1 → Recorded acc.1 acc.2 →
      Inv (terms.foldl (scanTerm hashlittle) acc).1 ∧
        Recorded (terms.foldl (scanTerm hashlittle) acc).1
          (terms.foldl (scanTerm hashlittle) acc).2 := by
    induction terms with
    | nil => exact fun acc h hrec => ⟨h, hrec⟩
    | cons term terms ih =>
      intro acc h hrec
      rw [List.foldl_cons]
      by_cases hm : hashlittle term ∈ acc.2
      · rw [scanTerm, if_pos hm]
        exact ih acc h hrec
      · rw [scanTerm, if_neg hm]
        refine ih _ (h.recordTerm hashlittle term) ⟨?_, ?_⟩
        · exact List.nodup_append.mpr ⟨hrec.nodup, List.nodup_singleton _, fun a ha b hb => by
            rw [List.mem_singleton.mp hb]
            exact fun he => hm (he ▸ ha)⟩
        · intro hash hh
          rw [mem_recordTerm]
          rcases List.mem_append.mp hh with hh | hh
          · exact .inr (hrec.mem hash hh)
          · exact .inl (List.mem_singleton.mp hh)
  exact hrun (s, []) h ⟨List.nodup_nil, by simp⟩

theorem parseLineTerms_eq (line : Line) (alloc : Nat × Nat → Alloc) (ord : Order) :
    s.parseLineTerms hashlittle line alloc ord = s.indexTerms hashlittle line.terms alloc ord :=
  if_neg line.termString_ne_nil

theorem Inv.indexTerms (h : Inv s) (terms : List (List UInt8)) (alloc : Nat × Nat → Alloc)
    (ord : Order) : Inv (s.indexTerms hashlittle terms alloc ord) := by
  obtain ⟨hs, hrec⟩ := h.scanTerms hashlittle terms
  exact { hs.addCooc hrec alloc ord with }

theorem Inv.parseLineTerms (h : Inv s) (line : Line) (alloc : Nat × Nat → Alloc) (ord : Order) :
    Inv (s.parseLineTerms hashlittle line alloc ord) := by
  rw [parseLineTerms_eq]
  exact h.indexTerms hashlittle line.terms alloc ord

theorem Inv.exec (h : Inv s) (cmd : Cmd) : Inv (cmd.exec hashlittle s) := by
  cases cmd with
  | parseLineTerms line alloc ord => exact h.parseLineTerms hashlittle line alloc ord
  | sortIndexInt threshold ord =>
    rw [Cmd.exec, sortIndexInt]
    exact h.sweepIndex ord _ _
  | sortIndexFloat threshold ord =>
    rw [Cmd.exec, sortIndexFloat]
    exact h.sweepIndex ord _ _
  | filtIndex K pos alloc ord =>
    rw [Cmd.exec, filtIndex]
    split
    · exact h.sweepIndex ord _ _
    · exact h

theorem Inv.run (h : Inv s) (cmds : List Cmd) : Inv (run hashlittle s cmds) := by
  induction cmds generalizing s with
  | nil => exact h
  | cons cmd cmds ih => exact ih (h.exec hashlittle cmd)

/-- The representation invariant holds after every sequence of calls. -/
theorem index_wellFormed (cmds : List Cmd) : Inv (WordNet.run hashlittle State.empty cmds) :=
  inv_empty.run hashlittle cmds

end

end TextMining.WordNet
