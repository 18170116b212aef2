import TextMining.WordNet.LoadIndex
import TextMining.WordNet.View

/-!
# The index after a dump

The files of a dump load, and what they load to satisfies the invariant and
shows what the dumped index showed, with the counts of the present merged
into the history.
-/

namespace TextMining.WordNet

open State Cooc

-- ---------------------------------------------------------------------------
-- Numbered maps
-- ---------------------------------------------------------------------------

theorem numbered_keys (first : Nat) (order : List (Σ _ : UInt32, Nat)) :
    (numbered first order).map Sigma.fst = order.map Sigma.fst := by
  induction order generalizing first with
  | nil => rfl
  | cons e order ih => simp [numbered, ih]

theorem numbered_values (first : Nat) (order : List (Σ _ : UInt32, Nat)) :
    (numbered first order).map Sigma.snd = List.range' first order.length := by
  induction order generalizing first with
  | nil => rfl
  | cons e order ih => simp [numbered, ih, List.range'_succ]

theorem mem_numbered {first : Nat} {order : List (Σ _ : UInt32, Nat)} {e : Σ _ : UInt32, Nat}
    (h : e ∈ numbered first order) :
    ∃ k slot, e.2 = first + k ∧ order[k]? = some ⟨e.1, slot⟩ := by
  induction order generalizing first with
  | nil => cases h
  | cons e' order ih =>
    rcases List.mem_cons.mp h with rfl | h
    · exact ⟨0, e'.2, rfl, rfl⟩
    · obtain ⟨k, slot, hk, hslot⟩ := ih h
      exact ⟨k + 1, slot, by omega, hslot⟩

theorem entries_renumber (ord : Order) (i first : Nat) (m : HashMap UInt32 Nat) :
    (renumber first (ord.walk i m)).entries.Perm (numbered first (ord.walk i m)) := by
  have hd : ((numbered first (ord.walk i m)).map Sigma.fst).Nodup := by
    rw [numbered_keys]
    exact ord.nodup_walk i m
  simpa [renumber] using HashMap.entries_insertAll hd fun e _ => AList.notMem_empty e.1

/-- A term with its relations numbered along `order`, which lists the related
terms of all terms from this one on. -/
structure Renumbered (order : List (Σ _ : UInt32, Nat)) (first : Nat) (t t' : TermInfo) :
    Prop where
  termstr : t'.termstr = t.termstr
  dfHistory : t'.dfHistory = t.dfHistory
  dfNow : t'.dfNow = t.dfNow
  relateTermNum : t'.relateTermNum = t.relateTermNum
  size : t'.coocTerm.size = t.coocTerm.size
  key : ∀ hash ∈ t.coocTerm, hash ∈ t'.coocTerm
  slot : ∀ hash slot', t'.coocTerm.lookup hash = some slot' → ∃ k slot, slot' = first + k ∧
    order[k]? = some ⟨hash, slot⟩ ∧ t.coocTerm.lookup hash = some slot

section
variable (ord : Order)

theorem renumbered_term (i first : Nat) (t : TermInfo) (rest : List (Σ _ : UInt32, Nat)) :
    Renumbered (ord.walk i t.coocTerm ++ rest) first t
      { t with coocTerm := renumber first (ord.walk i t.coocTerm) } := by
  have hp := entries_renumber ord i first t.coocTerm
  refine ⟨rfl, rfl, rfl, rfl, ?_, ?_, ?_⟩
  · exact hp.length_eq.trans ((length_numbered _ _).trans (length_walk ord i t.coocTerm))
  · intro hash hm
    obtain ⟨slot, hslot⟩ := HashMap.exists_of_mem hm
    have hkey : hash ∈ (ord.walk i t.coocTerm).map Sigma.fst :=
      List.mem_map_of_mem (ord.mem_walk.mpr hslot : (⟨hash, slot⟩ : Σ _ : UInt32, Nat) ∈ _)
    rw [← numbered_keys first] at hkey
    exact AList.mem_keys.mpr ((hp.map Sigma.fst).mem_iff.mpr hkey)
  · intro hash slot' hl
    obtain ⟨k, slot, hk, hslot⟩ := mem_numbered (hp.mem_iff.mp (AList.mem_lookup_iff.mp hl))
    refine ⟨k, slot, hk, ?_, ord.mem_walk.mp (List.mem_of_getElem? hslot)⟩
    rw [List.getElem?_append_left (List.getElem?_eq_some_iff.mp hslot).1, hslot]

theorem renumbered_get {i first j : Nat} {ts : List TermInfo} {t' : TermInfo}
    (h : (renumberTerms ord i first ts)[j]? = some t') :
    ∃ t, ts[j]? = some t ∧ Renumbered (walked ord i ts) first t t' := by
  induction ts generalizing i first j with
  | nil => simp [renumberTerms] at h
  | cons t ts ih =>
    cases j with
    | zero =>
      obtain rfl : _ = t' := Option.some.inj h
      exact ⟨t, rfl, renumbered_term ord i first t _⟩
    | succ j =>
      obtain ⟨t₀, ht₀, hr⟩ := ih h
      refine ⟨t₀, ht₀, { hr with slot := fun hash slot' hl => ?_ }⟩
      obtain ⟨k, slot, hk, hslot, hl'⟩ := hr.slot hash slot' hl
      refine ⟨t.coocTerm.size + k, slot, by omega, ?_, hl'⟩
      rw [walked, List.getElem?_append_right (by rw [length_walk]; exact Nat.le_add_right _ _),
        length_walk, Nat.add_sub_cancel_left]
      exact hslot

theorem renumberTerms_slots (i first : Nat) (ts : List TermInfo) :
    ((renumberTerms ord i first ts).flatMap fun t => t.coocTerm.values).Perm
      (List.range' first (walked ord i ts).length) := by
  induction ts generalizing i first with
  | nil => exact .refl _
  | cons t ts ih =>
    have hp : (renumber first (ord.walk i t.coocTerm)).values.Perm
        (List.range' first t.coocTerm.size) := by
      have hv := HashMap.values_perm (entries_renumber ord i first t.coocTerm)
      rwa [numbered_values, length_walk] at hv
    have happ : List.range' first t.coocTerm.size ++
        List.range' (first + 1 * t.coocTerm.size) (walked ord (i + 1) ts).length =
          List.range' first (t.coocTerm.size + (walked ord (i + 1) ts).length) := List.range'_append
    rw [Nat.one_mul] at happ
    rw [walked, List.length_append, length_walk, ← happ]
    exact hp.append (ih (i + 1) (first + t.coocTerm.size))

end

-- ---------------------------------------------------------------------------
-- Sizes
-- ---------------------------------------------------------------------------

section
variable {s : State}

/-- The vectors lie in a 32-bit address space. -/
structure State.Fits (s : State) : Prop where
  terms : s.mTermInfo.length < 2 ^ 32
  relates : s.mRelateInfo.length < 2 ^ 32

theorem Inv.size_termIndex (h : Inv s) : s.mTermIndex.size = s.mTermInfo.length := by
  have hd : s.mTermIndex.values.Nodup := by
    refine List.Nodup.map_on ?_ (List.Nodup.of_map _ s.mTermIndex.nodupKeys)
    rintro ⟨hash, i⟩ he ⟨hash', i'⟩ he' (rfl : i = i')
    obtain rfl := h.indexInj hash hash' i (AList.mem_lookup_iff.mpr he) (AList.mem_lookup_iff.mpr he')
    rfl
  have hp : s.mTermIndex.values.Perm (List.range s.mTermInfo.length) :=
    (List.perm_ext_iff_of_nodup hd List.nodup_range).mpr fun i => by
      rw [HashMap.mem_values, List.mem_range, h.index i]
  have hl := hp.length_eq
  rwa [HashMap.values, List.length_map, List.length_range] at hl

theorem Inv.length_walked (h : Inv s) (ord : Order) :
    (walked ord 0 s.mTermInfo).length ≤ s.mRelateInfo.length := by
  have hp := walked_perm ord 0 s.mTermInfo
  have hd : s.usedSlots.Nodup := (List.nodup_append.mp h.slots).1
  have hsub : s.usedSlots ⊆ List.range s.mRelateInfo.length := fun slot hslot =>
    List.mem_range.mpr (h.bound slot (List.mem_append_left _ hslot))
  have hl := (List.subperm_of_subset hd hsub).length_le
  have hw := hp.length_eq
  rw [List.length_map] at hw
  rw [List.length_range] at hl
  exact hw.le.trans hl

def TermData.Named (d : TermData) : Prop := d.termstr.length < 64 ∧ ∀ b ∈ d.termstr, b ≠ 0

theorem Inv.named (h : Inv s) (hv : ∀ hash e, s.view hash = some e → e.data.Named) {t : TermInfo}
    (ht : t ∈ s.mTermInfo) : t.Named := by
  obtain ⟨i, hi⟩ := List.mem_iff_getElem?.mp ht
  obtain ⟨hash, hh⟩ := (h.index i).mp (List.getElem?_eq_some_iff.mp hi).1
  exact hv hash (s.entry t) (by rw [view_of_lookup hh, hi, Option.map_some])

theorem named_foldl (hashlittle : List UInt8 → UInt32) (lines : List Line) {v : View} (hv : ∀ hash e, v hash = some e → e.data.Named) :
    ∀ hash e, lines.foldl (fun v line => v.addLine .next TermData.again
      (newData hashlittle line.terms) (line.terms.map hashlittle)) v hash = some e →
      e.data.Named := by
  have hagain : ∀ d : TermData, d.Named → d.again.Named := fun _ hd => hd
  have hnew : ∀ terms hash, (newData hashlittle terms hash).Named := fun _ _ =>
    ⟨lt_of_le_of_lt (length_snprintf_le 64 _) (by decide), snprintf_ne_zero⟩
  induction lines generalizing v with
  | nil => exact hv
  | cons line lines ih => exact ih (Index.forall_addLine hagain (hnew line.terms) hv .next _)

end

-- ---------------------------------------------------------------------------
-- The loaded index
-- ---------------------------------------------------------------------------

/-- What a loader that merges by `mt` and `mr` makes of the files of a dump. -/
structure Loaded (mt : TermInfo → TermInfo) (mr : RelateTermInfo → RelateTermInfo) (ord : Order)
    (s s' : State) : Prop where
  termIndex : ∀ hash, s'.mTermIndex.lookup hash = s.mTermIndex.lookup hash
  termInfo : s'.mTermInfo = (renumberTerms ord 0 0 s.mTermInfo).map mt
  relateInfo : s'.mRelateInfo = (walked ord 0 s.mTermInfo).map fun e => mr (s.relate e.2)
  indexSlot : s'.mRelateIndexSlot = []
  termNum : s'.total.termNum = s.total.termNum

section
variable {mt : TermInfo → TermInfo} {mr : RelateTermInfo → RelateTermInfo} {ord : Order}
  {s s' : State}

theorem Loaded.length (hl : Loaded mt mr ord s s') : s'.mTermInfo.length = s.mTermInfo.length := by
  rw [hl.termInfo, List.length_map, length_renumberTerms]

theorem Loaded.get (hl : Loaded mt mr ord s s') {i : Nat} {t' : TermInfo}
    (h : s'.mTermInfo[i]? = some t') :
    ∃ t t₁, s.mTermInfo[i]? = some t ∧ t' = mt t₁ ∧
      Renumbered (walked ord 0 s.mTermInfo) 0 t t₁ := by
  rw [hl.termInfo, List.getElem?_map] at h
  obtain ⟨t₁, ht₁, rfl⟩ := Option.map_eq_some_iff.mp h
  obtain ⟨t, ht, hr⟩ := renumbered_get ord ht₁
  exact ⟨t, t₁, ht, rfl, hr⟩

theorem Loaded.inv (hl : Loaded mt mr ord s s') (h : Inv s)
    (hmt : ∀ t, (mt t).coocTerm = t.coocTerm ∧ (mt t).relateTermNum = t.relateTermNum) : Inv s' := by
  have hmem : ∀ hash, hash ∈ s'.mTermIndex ↔ hash ∈ s.mTermIndex := fun hash => by
    rw [← AList.lookup_isSome, hl.termIndex, AList.lookup_isSome]
  have hused : s'.usedSlots.Perm (List.range (walked ord 0 s.mTermInfo).length) := by
    rw [State.usedSlots, hl.termInfo, List.flatMap_map]
    simp only [hmt]
    exact List.range_eq_range' ▸ renumberTerms_slots ord 0 0 s.mTermInfo
  refine ⟨?_, ?_, hl.length.trans (h.size.trans hl.termNum.symm), ?_, ?_, ?_, ?_, ?_⟩
  · intro i
    simp only [hl.length, h.index i, hl.termIndex]
  · intro hash hash' i hi hi'
    rw [hl.termIndex] at hi hi'
    exact h.indexInj hash hash' i hi hi'
  · intro t' ht' hash hm
    obtain ⟨i, hi⟩ := List.mem_iff_getElem?.mp ht'
    obtain ⟨t, t₁, ht, rfl, hr⟩ := hl.get hi
    rw [(hmt t₁).1] at hm
    obtain ⟨slot', hslot'⟩ := HashMap.exists_of_mem hm
    obtain ⟨k, slot, -, -, hslot⟩ := hr.slot hash slot' hslot'
    exact (hmem hash).mpr (h.key t (List.mem_of_getElem? ht) hash (HashMap.mem_of_lookup hslot))
  · intro i t' hash hi hidx hm
    obtain ⟨t, t₁, ht, rfl, hr⟩ := hl.get hi
    rw [(hmt t₁).1] at hm
    obtain ⟨slot', hslot'⟩ := HashMap.exists_of_mem hm
    obtain ⟨k, slot, -, -, hslot⟩ := hr.slot hash slot' hslot'
    exact h.own i t hash ht (hl.termIndex hash ▸ hidx) (HashMap.mem_of_lookup hslot)
  · intro t' ht'
    obtain ⟨i, hi⟩ := List.mem_iff_getElem?.mp ht'
    obtain ⟨t, t₁, ht, rfl, hr⟩ := hl.get hi
    rw [(hmt t₁).1, (hmt t₁).2, hr.relateTermNum, hr.size]
    exact h.relateNum t (List.mem_of_getElem? ht)
  · rw [hl.indexSlot, List.append_nil]
    exact hused.nodup_iff.mpr List.nodup_range
  · intro slot hslot
    rw [hl.indexSlot, List.append_nil] at hslot
    rw [hl.relateInfo, List.length_map]
    exact List.mem_range.mp (hused.mem_iff.mp hslot)

theorem Loaded.relate (hl : Loaded mt mr ord s s') {k slot : Nat} {hash : UInt32}
    (h : (walked ord 0 s.mTermInfo)[k]? = some ⟨hash, slot⟩) :
    s'.mRelateInfo[k]? = some (mr (s.relate slot)) := by
  rw [hl.relateInfo, List.getElem?_map, h, Option.map_some]

/-- Loading shows what was dumped, merged. -/
theorem Loaded.view (hl : Loaded mt mr ord s s') {f : TermData → TermData}
    (hmt : ∀ t, (mt t).coocTerm = t.coocTerm)
    (hf : ∀ t, ⟨(mt t).termstr, (mt t).dfHistory, (mt t).dfNow⟩ =
      f ⟨t.termstr, t.dfHistory, t.dfNow⟩) : s'.view = s.view.map f mr := by
  funext hash
  rw [State.view, hl.termIndex, Index.map, State.view]
  cases hidx : s.mTermIndex.lookup hash with
  | none => rfl
  | some i =>
    rw [Option.bind_some, Option.bind_some]
    cases hi : s'.mTermInfo[i]? with
    | none =>
      have hlen := List.getElem?_eq_none_iff.mp hi
      rw [hl.length] at hlen
      rw [List.getElem?_eq_none_iff.mpr hlen]
      rfl
    | some t' =>
      obtain ⟨t, t₁, ht, rfl, hr⟩ := hl.get hi
      rw [ht]
      simp only [Option.map_some, Option.some.injEq, State.entry, Entry.mk.injEq, hf, hmt]
      refine ⟨by rw [hr.termstr, hr.dfHistory, hr.dfNow], funext fun b => ?_⟩
      cases hb : t₁.coocTerm.lookup b with
      | none =>
        have hnot : b ∉ t.coocTerm := fun hm => AList.lookup_eq_none.mp hb (hr.key b hm)
        rw [AList.lookup_eq_none.mpr hnot]
        rfl
      | some slot' =>
        obtain ⟨k, slot, rfl, hk, hslot⟩ := hr.slot b slot' hb
        rw [hslot, Option.map_some, Option.map_some, Option.map_some, Nat.zero_add, State.relate,
          hl.relate hk, Option.getD_some]

end

-- ---------------------------------------------------------------------------
-- The files of a dump load
-- ---------------------------------------------------------------------------

section
variable {s : State} (indexOrd ord : Order) (junk : Nat → List UInt8)

def dumpedRelates (s : State) (ord : Order) : UInt32 :=
  UInt32.ofNat (walked ord 0 s.mTermInfo).length

theorem toNat_dumpedRelates (h : Inv s) (hfit : s.Fits) :
    (dumpedRelates s ord).toNat = (walked ord 0 s.mTermInfo).length :=
  UInt32.toNat_ofNat_of_lt' ((h.length_walked ord).trans_lt hfit.relates)

theorem dumpIndex_sorted :
    (s.dumpIndex indexOrd ord junk).1.total =
      { s.total with sortedRelateTermNum := dumpedRelates s ord } := by
  have hd := dumpTerms_relates (s := s) ord junk 0 s.mTermInfo 0
  rw [Nat.zero_add] at hd
  simp only [State.dumpIndex, show (0 : UInt32) = UInt32.ofNat 0 from rfl, hd, dumpedRelates]

theorem dumpIndex_n :
    (s.dumpIndex indexOrd ord junk).2.n =
      some (snprintf 128 (s.dumpIndex indexOrd ord junk).1.total.text) := rfl

theorem dumpIndex_relateInfo :
    (s.dumpIndex indexOrd ord junk).2.relateInfo =
      some (((walked ord 0 s.mTermInfo).map fun e => s.relate e.2).flatMap RelateTermInfo.bytes) := by
  have hd := dumpTerms_relates (s := s) ord junk 0 s.mTermInfo 0
  rw [List.flatMap_map]
  simp only [State.dumpIndex, show (0 : UInt32) = UInt32.ofNat 0 from rfl, hd]

theorem loadTermIndex_dump (h : Inv s) (hfit : s.Fits) :
    ∃ ind1 ind2 m, (s.dumpIndex indexOrd ord junk).2.ind1 = some ind1 ∧
      (s.dumpIndex indexOrd ord junk).2.ind2 = some ind2 ∧
      loadTermIndex s.total.termNum s.total.termNum ∅ ind1 ind2 = some m ∧
      ∀ hash, m.lookup hash = s.mTermIndex.lookup hash := by
  have hlen : (indexOrd.walk 0 s.mTermIndex).length = s.total.termNum := by
    rw [length_walk, h.size_termIndex, h.size]
  have hlt : ∀ e ∈ indexOrd.walk 0 s.mTermIndex, e.2 < s.total.termNum := fun e he => by
    rw [← h.size, h.index]
    exact ⟨e.1, indexOrd.mem_walk.mp he⟩
  have hload := loadTermIndex_write hlt (h.size ▸ hfit.terms) ∅
  rw [hlen] at hload
  exact ⟨_, _, _, rfl, rfl, hload, HashMap.lookup_insertAll (indexOrd.perm 0 _)⟩

theorem loadTerms_dumpIndex (h : Inv s) (hfit : s.Fits) (hname : ∀ t ∈ s.mTermInfo, t.Named)
    (merge : TermInfo → TermInfo) :
    ∃ terms, (s.dumpIndex indexOrd ord junk).2.termInfo = some terms ∧
      loadTerms merge (dumpedRelates s ord) s.total.termNum terms =
        some ((renumberTerms ord 0 0 s.mTermInfo).map merge) := by
  have hle : 0 + (walked ord 0 s.mTermInfo).length ≤ (dumpedRelates s ord).toNat := by
    rw [toNat_dumpedRelates ord h hfit, Nat.zero_add]
  have hload := loadTerms_dump (s := s) ord junk merge hname h.relateNum 0 0 hle
  rw [h.size] at hload
  exact ⟨_, rfl, hload⟩

/-- What `DumpIndex` writes `LoadIndex` accepts. -/
theorem loadIndex_dumpIndex (h : Inv s) (hfit : s.Fits) (hname : ∀ t ∈ s.mTermInfo, t.Named)
    (unset : Nat → Nat) (relateInfo : List UInt8) :
    ∃ s', loadIndex unset relateInfo (s.dumpIndex indexOrd ord junk).2 = some s' ∧
      Loaded .merge .merge ord s s' ∧ s'.mNoMemory = false ∧
      s'.total.weiboNum = s.total.weiboNum := by
  obtain ⟨ind1, ind2, m, hind1, hind2, hm, hlookup⟩ :=
    loadTermIndex_dump indexOrd ord junk h hfit
  obtain ⟨terms, hterms, hts⟩ := loadTerms_dumpIndex indexOrd ord junk h hfit hname .merge
  have hrs := loadRelates_bytes .merge ((walked ord 0 s.mTermInfo).map fun e => s.relate e.2)
  have htotal := loadTotal_text splitsCounts_SpliteByChar
    (countField_weibo _ (s.dumpIndex indexOrd ord junk).1.total.weiboNum.toNat_lt) unset
    (snprintf 100 relateInfo)
  have hweibo := readDecimal_decimal_self s.total.weiboNum.toNat_lt (unset 3)
  have hnum : s.total.termNum % 2 ^ 32 = s.total.termNum := Nat.mod_eq_of_lt (h.size ▸ hfit.terms)
  simp only [dumpIndex_sorted, hnum, hweibo, UInt64.ofNat_toNat] at htotal
  rw [List.length_map, ← toNat_dumpedRelates ord h hfit, List.map_map] at hrs
  refine ⟨⟨m, (renumberTerms ord 0 0 s.mTermInfo).map .merge,
    (walked ord 0 s.mTermInfo).map fun e => (s.relate e.2).merge, [], false,
    ⟨s.total.termNum, dumpedRelates s ord, dumpedRelates s ord, s.total.weiboNum⟩⟩, ?_, ?_, ?_, ?_⟩
  · simp only [loadIndex, hind1, hind2, dumpIndex_n, hterms, dumpIndex_relateInfo,
      dumpIndex_sorted, Option.bind_eq_bind, Option.bind_some, htotal, hm, hts, hrs]
    rfl
  · exact ⟨hlookup, rfl, rfl, rfl, rfl⟩
  · rfl
  · rfl

end

end TextMining.WordNet
