import TextMining.WordNet.CommonWorker
import TextMining.WordNet.MappedOffsets
import TextMining.WordNet.TopK

/-!
# The hottest terms

The first loop of `GetHotTerm` selects up to 1000 terms into `hot_term_buf`,
and the second one reads the buffer from its last slot on. With fewer than
1000 terms the last slots were never written.
-/

namespace TextMining.WordNet.Server

open MinHeap

/-- The items whose appendix the second loop uses as an index. -/
def hotUsed (termInfo : List TermInfo) : List SortItem → List UInt8 → List SortItem
  | [], _ => []
  | item :: items, buf =>
    if buf.length < 2000 then
      item :: match termAt termInfo item.appendix with
        | none => []
        | some t =>
          hotUsed termInfo items
            (buf ++ snprintf 100 (t.termstr ++ text ":" ++ decimalInt t.dfNow.toInt32.toInt ++
              text " "))
    else []

/-- The slots in the order in which the second loop reads them. -/
def hotSlots (termInfo : List TermInfo) (hotTermBuf : List SortItem) : List SortItem :=
  ((hotTerms termInfo hotTermBuf).take 1000).reverse

def dfNow (termInfo : List TermInfo) (i : Nat) : UInt32 := (termInfo[i]?.map TermInfo.dfNow).getD 0

/-- The first slots hold the terms with these numbers, as many as the buffer
can have, and no other term is hotter. -/
structure Hottest (termInfo : List TermInfo) (hotTermBuf : List SortItem) (chosen : List Nat) :
    Prop where
  held : hotTermBuf.take chosen.length =
    chosen.map fun i => ⟨(dfNow termInfo i).toInt32, (UInt32.ofNat i).toInt32⟩
  number : chosen.length = min termInfo.length 1000
  nodup : chosen.Nodup
  lt : ∀ i ∈ chosen, i < termInfo.length
  hottest : ∀ i ∈ chosen, ∀ j < termInfo.length, j ∉ chosen →
    dfNow termInfo j ≤ dfNow termInfo i

/-- From this buffer `GetHotTerm` selects the hottest terms and reports only
such. -/
structure ReportsHottest (termInfo : List TermInfo) (hotTermBuf : List SortItem) : Prop where
  index_lt : ∀ item ∈ hotUsed termInfo (hotSlots termInfo hotTermBuf) [],
    item.appendix.toUInt32.toNat < termInfo.length
  distinct : ((hotUsed termInfo (hotSlots termInfo hotTermBuf) []).map SortItem.appendix).Nodup
  selected : ∃ chosen, Hottest termInfo (hotTerms termInfo hotTermBuf) chosen

theorem hotTerms_eq (termInfo : List TermInfo) (buf : List SortItem) : hotTerms termInfo buf =
    pushAll (fun i t => (t.dfNow, UInt32.ofNat i)) 1000 termInfo buf := rfl

-- ---------------------------------------------------------------------------
-- Items and their terms
-- ---------------------------------------------------------------------------

def hotItem (termInfo : List TermInfo) (i : Nat) : SortItem :=
  ⟨(dfNow termInfo i).toInt32, (UInt32.ofNat i).toInt32⟩

def number (item : SortItem) : Nat := item.appendix.toUInt32.toNat

section
variable {termInfo : List TermInfo} {buf : List SortItem}

theorem number_hotItem (hn : termInfo.length < 2 ^ 32) {i : Nat} (hi : i < termInfo.length) :
    number (hotItem termInfo i) = i := by
  rw [number, hotItem, UInt32.toUInt32_toInt32]
  exact UInt32.toNat_ofNat_of_lt' (hi.trans hn)

theorem sortItems_eq : sortItems (fun i (t : TermInfo) => (t.dfNow, UInt32.ofNat i)) termInfo =
    (List.range termInfo.length).map (hotItem termInfo) := by
  refine List.ext_getElem (by simp) fun i hi hi' => ?_
  rw [length_sortItems] at hi
  simp only [sortItems, List.getElem_map, List.getElem_zipIdx, List.getElem_range, hotItem, dfNow,
    List.getElem?_eq_getElem hi, Option.map_some, Option.getD_some, Nat.zero_add]

/-- The second loop ends well if and only if every index it uses is one. -/
theorem hotText_isSome_iff (items : List SortItem) (buf : List UInt8) :
    (hotText termInfo items buf).isSome ↔
      ∀ item ∈ hotUsed termInfo items buf, number item < termInfo.length := by
  induction items generalizing buf with
  | nil => simp [hotText, hotUsed]
  | cons item items ih =>
    rw [hotText, hotUsed]
    split
    · have hat : termAt termInfo item.appendix = termInfo[number item]? := rfl
      cases h : termAt termInfo item.appendix with
      | none =>
        rw [hat, List.getElem?_eq_none_iff] at h
        simp [h]
      | some t =>
        obtain ⟨hlt, -⟩ := List.getElem?_eq_some_iff.mp (hat.symm.trans h)
        rw [List.forall_mem_cons, ← ih]
        exact (and_iff_right hlt).symm
    · simp

variable (termInfo) in
theorem hotUsed_prefix_slots (items : List SortItem) (text : List UInt8) :
    hotUsed termInfo items text <+: items := by
  induction items generalizing text with
  | nil => exact List.nil_prefix
  | cons item items ih =>
    rw [hotUsed]
    split
    · refine (List.cons_prefix_cons).mpr ⟨rfl, ?_⟩
      split
      · exact List.nil_prefix
      · exact ih _
    · exact List.nil_prefix

-- ---------------------------------------------------------------------------
-- At least 1000 terms
-- ---------------------------------------------------------------------------

theorem key_hotItem (hsmall : ∀ t ∈ termInfo, t.dfNow.toNat < 2 ^ 31) (i : Nat) :
    Heap.key (hotItem termInfo i) = ((dfNow termInfo i).toNat : Int) := by
  refine toInt_toInt32 ?_
  rw [dfNow]
  cases h : termInfo[i]? with
  | none => decide
  | some t => exact hsmall t (List.mem_of_getElem? h)

/-- The buffer holds different terms, and the others are no hotter. -/
theorem selected_full (hn : termInfo.length < 2 ^ 32)
    (hsmall : ∀ t ∈ termInfo, t.dfNow.toNat < 2 ^ 31) (hbuf : buf.length = 1000)
    (hfull : 1000 ≤ termInfo.length) :
    Hottest termInfo (hotTerms termInfo buf) ((hotTerms termInfo buf).map number) := by
  have hcount : ∀ s ∈ sortItems (fun i (t : TermInfo) => (t.dfNow, UInt32.ofNat i)) termInfo,
      0 ≤ Heap.key s := by
    intro s hs
    rw [sortItems_eq] at hs
    obtain ⟨i, -, rfl⟩ := List.mem_map.mp hs
    rw [key_hotItem hsmall]
    exact Int.natCast_nonneg _
  obtain ⟨-, ⟨rest, hseen, hle⟩, hlen⟩ := selects_pushAll (by decide) hbuf hfull hcount
  rw [← hotTerms_eq] at hseen hle hlen
  rw [sortItems_eq] at hseen
  generalize hotTerms termInfo buf = kept at hseen hle hlen
  have hitem : ∀ s ∈ kept ++ rest, number s < termInfo.length ∧ s = hotItem termInfo (number s) := by
    intro s hs
    obtain ⟨i, hi, rfl⟩ := List.mem_map.mp (hseen.mem_iff.mpr hs)
    have hi := List.mem_range.mp hi
    rw [number_hotItem hn hi]
    exact ⟨hi, rfl⟩
  have hnumbers : (List.range termInfo.length).Perm (kept.map number ++ rest.map number) := by
    have h := hseen.map number
    rw [List.map_map, List.map_append] at h
    have hid : (List.range termInfo.length).map (number ∘ hotItem termInfo) =
        List.range termInfo.length := by
      refine (List.map_congr_left fun i hi => ?_).trans (List.map_id _)
      exact number_hotItem hn (List.mem_range.mp hi)
    rwa [hid] at h
  have hnd := (List.nodup_append.mp (hnumbers.nodup_iff.mp List.nodup_range))
  constructor
  · rw [List.length_map, List.take_length, List.map_map]
    conv_lhs => rw [← List.map_id kept]
    exact List.map_congr_left fun s hs => (hitem s (List.mem_append_left _ hs)).2
  · rw [List.length_map, hlen, Nat.min_eq_right hfull]
  · exact hnd.1
  · intro i hi
    obtain ⟨s, hs, rfl⟩ := List.mem_map.mp hi
    exact (hitem s (List.mem_append_left _ hs)).1
  · intro i hi j hj hnot
    obtain ⟨s, hs, rfl⟩ := List.mem_map.mp hi
    have hj : j ∈ rest.map number := by
      rcases List.mem_append.mp (hnumbers.mem_iff.mp (List.mem_range.mpr hj)) with hj | hj
      · exact absurd hj hnot
      · exact hj
    obtain ⟨s', hs', rfl⟩ := List.mem_map.mp hj
    have hkey := hle s hs s' hs'
    rw [(hitem s (List.mem_append_left _ hs)).2, (hitem s' (List.mem_append_right _ hs')).2,
      key_hotItem hsmall, key_hotItem hsmall, Int.ofNat_le] at hkey
    exact UInt32.le_iff_toNat_le.mpr hkey

theorem reportsHottest_full (hn : termInfo.length < 2 ^ 32)
    (hsmall : ∀ t ∈ termInfo, t.dfNow.toNat < 2 ^ 31) (hbuf : buf.length = 1000)
    (hfull : 1000 ≤ termInfo.length) : ReportsHottest termInfo buf := by
  have hsel := selected_full hn hsmall hbuf hfull
  have hused := hotUsed_prefix_slots termInfo (hotSlots termInfo buf) []
  have hslots : ∀ item ∈ hotSlots termInfo buf, item ∈ hotTerms termInfo buf := fun item hi =>
    List.mem_of_mem_take (List.mem_reverse.mp hi)
  refine ⟨fun item hi => ?_, ?_, _, hsel⟩
  · exact hsel.lt _ (List.mem_map_of_mem (hslots item (hused.mem hi)))
  · have hnd : ((hotTerms termInfo buf).map SortItem.appendix).Nodup := by
      have h := hsel.nodup
      rw [show number = (fun a : Int32 => a.toUInt32.toNat) ∘ SortItem.appendix from rfl,
        ← List.map_map] at h
      exact h.of_map _
    have hslots : ((hotSlots termInfo buf).map SortItem.appendix).Nodup := by
      rw [hotSlots, List.map_reverse, List.nodup_reverse]
      exact hnd.sublist ((List.take_sublist _ _).map _)
    exact hslots.sublist (hused.sublist.map _)

-- ---------------------------------------------------------------------------
-- Fewer terms
-- ---------------------------------------------------------------------------

theorem hotTerms_of_lt (hbuf : buf.length = 1000) (hlt : termInfo.length < 1000) :
    hotTerms termInfo buf =
      (List.range termInfo.length).map (hotItem termInfo) ++ buf.drop termInfo.length := by
  rw [hotTerms_eq, pushAll_of_lt hbuf hlt, sortItems_eq]

/-- The slots behind the terms keep what `malloc` found, and the second loop
begins with them. -/
theorem not_reportsHottest (hn : termInfo.length < 2 ^ 32) (hlt : termInfo.length < 1000) :
    ¬ ReportsHottest termInfo (List.replicate 1000 ⟨0, (UInt32.ofNat termInfo.length).toInt32⟩) := by
  intro h
  have hbuf := List.length_replicate (n := 1000)
    (a := (⟨0, (UInt32.ofNat termInfo.length).toInt32⟩ : SortItem))
  have hterms := hotTerms_of_lt hbuf hlt
  have hmany : 1000 - termInfo.length = (999 - termInfo.length) + 1 := by omega
  rw [List.drop_replicate, hmany] at hterms
  have hslots : hotSlots termInfo (List.replicate 1000 ⟨0, (UInt32.ofNat termInfo.length).toInt32⟩) =
      ⟨0, (UInt32.ofNat termInfo.length).toInt32⟩ ::
        (List.replicate (999 - termInfo.length) ⟨0, (UInt32.ofNat termInfo.length).toInt32⟩ ++
          ((List.range termInfo.length).map (hotItem termInfo)).reverse) := by
    rw [hotSlots, hterms, List.take_of_length_le (by simp; omega), List.reverse_append,
      List.reverse_replicate, List.replicate_succ, List.cons_append]
  have hfirst := h.index_lt ⟨0, (UInt32.ofNat termInfo.length).toInt32⟩ (by
    rw [hslots, hotUsed, if_pos (by decide)]
    exact List.mem_cons_self)
  rw [UInt32.toUInt32_toInt32, UInt32.toNat_ofNat_of_lt' hn] at hfirst
  exact Nat.lt_irrefl _ hfirst

end

-- ---------------------------------------------------------------------------
-- Loaded terms
-- ---------------------------------------------------------------------------

theorem termNum_lt {split : List UInt8 → Option (List (List UInt8))} {unset : Nat → Nat}
    {buf file : List UInt8} {total : TotalIndexInfo} (h : loadTotal split unset buf file = some total) :
    total.termNum < 2 ^ 32 := by
  simp only [loadTotal, Option.bind_eq_bind, Option.bind_eq_some_iff, Option.some.injEq] at h
  obtain ⟨_, -, _, -, _, -, _, -, rfl⟩ := h
  exact Nat.mod_lt _ (by decide)

theorem length_termInfo_lt {unset : Nat → Nat} {hotTermBuf : List SortItem} {files : IndexFiles}
    {g : GlobalData} (h : createGlobalData unset hotTermBuf files = some g) :
    g.termInfo.length < 2 ^ 32 := by
  simp only [createGlobalData, loadIndexmmap, Option.bind_eq_bind, Option.bind_eq_some_iff,
    Option.some.injEq] at h
  obtain ⟨_, -, _, -, _, -, _, -, total, htotal, _, -, ts, hts, _, -, _, -, rfl⟩ := h
  rw [length_loadTerms hts]
  exact termNum_lt htotal

/-- Whatever `malloc` leaves in the buffer, the hottest terms and only they
are reported if and only if there are at least 1000 terms. -/
theorem reportsHottest_iff {unset : Nat → Nat} {hotTermBuf : List SortItem} {files : IndexFiles}
    {g : GlobalData} (h : createGlobalData unset hotTermBuf files = some g)
    (hsmall : ∀ t ∈ g.termInfo, t.dfNow.toNat < 2 ^ 31) :
    (∀ fresh : List SortItem, fresh.length = 1000 → ReportsHottest g.termInfo fresh) ↔
      1000 ≤ g.termInfo.length := by
  have hn := length_termInfo_lt h
  constructor
  · intro hall
    by_contra hlt
    exact not_reportsHottest hn (not_le.mp hlt) (hall _ List.length_replicate)
  · intro hfull fresh hbuf
    exact reportsHottest_full hn hsmall hbuf hfull

theorem load_one_term : ∃ g,
    createGlobalData (fun _ => 0) [] (lastRelation 1 (List.replicate 12 0)) = some g ∧
      g.termInfo.map TermInfo.dfNow = [1] ∧ g.termInfo.length = 1 := by
  have hload : (createGlobalData (fun _ => 0) [] (lastRelation 1 (List.replicate 12 0))).map
      (fun g => g.termInfo.map TermInfo.dfNow) = some [1] := by decide +kernel
  obtain ⟨g, hg, hone⟩ := Option.map_eq_some_iff.mp hload
  have hlen := congrArg List.length hone
  rw [List.length_map] at hlen
  exact ⟨g, hg, hone, hlen⟩

theorem reportsHottest_one : ∃ g,
    createGlobalData (fun _ => 0) [] (lastRelation 1 (List.replicate 12 0)) = some g ∧
      ¬ ∀ fresh : List SortItem, fresh.length = 1000 → ReportsHottest g.termInfo fresh := by
  obtain ⟨g, hg, hone, hlen⟩ := load_one_term
  have hsmall : ∀ t ∈ g.termInfo, t.dfNow.toNat < 2 ^ 31 := fun t ht => by
    have h := List.mem_map_of_mem (f := TermInfo.dfNow) ht
    rw [hone, List.mem_singleton] at h
    rw [h]
    decide
  refine ⟨g, hg, fun hall => ?_⟩
  have hfull := (reportsHottest_iff hg hsmall).mp hall
  omega

/-- With one term and a buffer where `malloc` finds the number 1 everywhere,
the first index used is 1. -/
theorem unset_slot_reported : ∃ g,
    createGlobalData (fun _ => 0) [] (lastRelation 1 (List.replicate 12 0)) = some g ∧
      g.termInfo.length = 1 ∧ ¬ ReportsHottest g.termInfo (List.replicate 1000 ⟨0, 1⟩) := by
  obtain ⟨g, hg, -, hlen⟩ := load_one_term
  refine ⟨g, hg, hlen, ?_⟩
  have hone : (UInt32.ofNat g.termInfo.length).toInt32 = 1 := by rw [hlen]; rfl
  rw [← hone]
  exact not_reportsHottest (by omega) (by omega)

end TextMining.WordNet.Server
