import TextMining.LibWb
import TextMining.WordNet.Heap
import TextMining.WordNet.Reload

/-!
# The index of the server

`LoadIndexmmap` keeps the counts as they were dumped, and maps the file of
the relations instead of reading it. It is linked with the splitter of libwb.
-/

namespace TextMining.WordNet.Server

open State

/-- `file_mmap_t`, without the descriptor: the size as an `int`, and the
bytes of the file. -/
structure FileMmap where
  fsize : Int32
  pmmap : List UInt8

structure GlobalData where
  totalIndexInfo : TotalIndexInfo
  termIndex : HashMap UInt32 Nat
  termInfo : List TermInfo
  fileMmap : FileMmap
  hotTermBuf : List SortItem

/-- `mmap relate info`; the size of the file is narrowed to an `int`. -/
def mmapRelate (relates : List UInt8) : Option FileMmap :=
  let filesize := Int32.ofNat relates.length
  if filesize ≤ 0 then none else some ⟨filesize, relates⟩

/-- `LoadIndexmmap`, whose last `snprintf` leaves the path `termInfo` in
`buf`, into the empty containers of `hotTermBuf`'s global data. -/
def loadIndexmmap (unset : Nat → Nat) (termInfo : List UInt8) (hotTermBuf : List SortItem)
    (files : IndexFiles) : Option GlobalData := do
  let ind1 ← files.ind1
  let ind2 ← files.ind2
  let n ← files.n
  let terms ← files.termInfo
  let total ← loadTotal (LibWb.SpliteByChar npos · 58) unset (snprintf 100 termInfo) n
  let termIndex ← loadTermIndex total.termNum total.termNum ∅ ind1 ind2
  let ts ← loadTerms id total.sortedRelateTermNum total.termNum terms
  let fileMmap ← mmapRelate (← files.relateInfo)
  some ⟨total, termIndex, ts, fileMmap, hotTermBuf⟩

/-- `CreateGlobalData`; `malloc` leaves `hotTermBuf` as it finds it. -/
def createGlobalData (unset : Nat → Nat) (hotTermBuf : List SortItem) (files : IndexFiles) :
    Option GlobalData :=
  loadIndexmmap unset (text "data/index/term_info.index") hotTermBuf files

def relateOffset (slot : Nat) : UInt32 := UInt32.ofNat slot * 12

def FileMmap.relateInfo (m : FileMmap) (offset : UInt32) : Option RelateTermInfo :=
  (readRelate (m.pmmap.drop offset.toNat)).map Prod.fst

-- ---------------------------------------------------------------------------
-- The counts
-- ---------------------------------------------------------------------------

theorem splitsCounts_SpliteByChar : SplitsCounts (LibWb.SpliteByChar npos · 58) := by
  intro name hname hlen n hn
  have hd := length_decimal_le (k := 10) (by decide) (hn.trans (by decide))
  have hsplit : LibWb.SpliteByChar npos (name ++ 58 :: (decimal n ++ [10])) 58 = some _ :=
    LibWb.SpliteByChar_eq rfl (by simp) (by
      simp only [List.length_append, List.length_cons, List.length_nil]
      omega)
  have hvalue : (58 : UInt8) ∉ decimal n ++ [10] := by
    simp only [List.mem_append, not_or]
    exact ⟨not_mem_decimal rfl, by decide⟩
  refine ⟨decimal n, ?_, readDecimal_decimal_self hn⟩
  rw [countField, hsplit, LibWb.columns_append hname (by simp), LibWb.columns_of_not_mem hvalue,
    List.dropLast_concat]

/-- The last line has no newline, and the number loses its last digit. -/
theorem countField_weibo (n : Nat) (hn : n < 2 ^ 64) :
    countField (LibWb.SpliteByChar npos · 58) (text "total_weibo:" ++ decimal n) =
      some (decimal n).dropLast := by
  have hd := length_decimal_le (k := 20) (by decide) (hn.trans (by decide))
  have hc : text "total_weibo:" ++ decimal n = text "total_weibo" ++ 58 :: decimal n := by
    have hc : text "total_weibo:" = text "total_weibo" ++ [58] := by decide
    rw [hc, List.append_assoc]
    rfl
  have hname : (text "total_weibo").length = 11 := rfl
  have hsplit : LibWb.SpliteByChar npos (text "total_weibo" ++ 58 :: decimal n) 58 = some _ :=
    LibWb.SpliteByChar_eq rfl (by simp) (by
      simp only [List.length_append, List.length_cons, hname]
      omega)
  rw [hc, countField, hsplit, LibWb.columns_append (by decide) (decimal_ne_nil n),
    LibWb.columns_of_not_mem (not_mem_decimal rfl)]

-- ---------------------------------------------------------------------------
-- The mapped file
-- ---------------------------------------------------------------------------

@[simp] theorem length_bytes (r : RelateTermInfo) : r.bytes.length = 12 := rfl

theorem length_flatMap_bytes (rs : List RelateTermInfo) :
    (rs.flatMap RelateTermInfo.bytes).length = 12 * rs.length := by
  induction rs with
  | nil => rfl
  | cons r rs ih =>
    simp only [List.flatMap_cons, List.length_append, length_bytes, ih, List.length_cons]
    omega

theorem readRelate_drop {rs : List RelateTermInfo} {k : Nat} {r : RelateTermInfo}
    (h : rs[k]? = some r) :
    (readRelate ((rs.flatMap RelateTermInfo.bytes).drop (12 * k))).map Prod.fst = some r := by
  induction rs generalizing k with
  | nil => cases h
  | cons r' rs ih =>
    cases k with
    | zero =>
      obtain rfl : r' = r := Option.some.inj h
      rw [Nat.mul_zero, List.drop_zero, List.flatMap_cons, readRelate_bytes, Option.map_some]
    | succ k =>
      have hdrop : (r'.bytes ++ rs.flatMap RelateTermInfo.bytes).drop (12 * (k + 1)) =
          (rs.flatMap RelateTermInfo.bytes).drop (12 * k) := by
        rw [Nat.mul_succ, List.drop_append, List.drop_of_length_le (Nat.le_add_left 12 _),
          length_bytes, Nat.add_sub_cancel, List.nil_append]
      rw [List.flatMap_cons, hdrop]
      exact ih h

-- ---------------------------------------------------------------------------
-- What a dump serves
-- ---------------------------------------------------------------------------

def relateBytes (s : State) (ord : Order) : List UInt8 :=
  ((walked ord 0 s.mTermInfo).map fun e => s.relate e.2).flatMap RelateTermInfo.bytes

theorem length_relateBytes (s : State) (ord : Order) :
    (relateBytes s ord).length = 12 * (walked ord 0 s.mTermInfo).length := by
  rw [relateBytes, length_flatMap_bytes, List.length_map]

/-- The server's copy of an index: the terms with their relations numbered
anew, and the records at the offsets of those numbers. -/
structure Copy (ord : Order) (s : State) (g : GlobalData) : Prop where
  termIndex : ∀ hash, g.termIndex.lookup hash = s.mTermIndex.lookup hash
  termInfo : g.termInfo = renumberTerms ord 0 0 s.mTermInfo
  pmmap : g.fileMmap.pmmap = relateBytes s ord

section
variable {ord : Order} {s : State} {g : GlobalData}

theorem Copy.record (hc : Copy ord s g) (hsmall : (relateBytes s ord).length < 2 ^ 31)
    {i : Nat} {t' : TermInfo} (ht' : g.termInfo[i]? = some t') {key : UInt32} {slot' : Nat}
    (hslot' : t'.coocTerm.lookup key = some slot') :
    ∃ t slot, s.mTermInfo[i]? = some t ∧ t.coocTerm.lookup key = some slot ∧
      g.fileMmap.relateInfo (relateOffset slot') = some (s.relate slot) := by
  rw [hc.termInfo] at ht'
  obtain ⟨t, ht, hr⟩ := renumbered_get ord ht'
  obtain ⟨k, slot, hk, hget, hslot⟩ := hr.slot key slot' hslot'
  rw [Nat.zero_add] at hk
  subst hk
  rw [length_relateBytes] at hsmall
  have hlt : slot' < (walked ord 0 s.mTermInfo).length := (List.getElem?_eq_some_iff.mp hget).1
  have hoff : (relateOffset slot').toNat = 12 * slot' := by
    rw [relateOffset, UInt32.toNat_mul, UInt32.toNat_ofNat_of_lt' (show slot' < 2 ^ 32 by omega),
      show (12 : UInt32).toNat = 12 from rfl, Nat.mod_eq_of_lt (by omega), Nat.mul_comm]
  refine ⟨t, slot, ht, hslot, ?_⟩
  rw [FileMmap.relateInfo, hoff, hc.pmmap]
  exact readRelate_drop (by rw [List.getElem?_map, hget, Option.map_some])

theorem Copy.term (hc : Copy ord s g) {i : Nat} {t : TermInfo} (ht : s.mTermInfo[i]? = some t) :
    ∃ t', g.termInfo[i]? = some t' ∧ t'.termstr = t.termstr ∧ t'.dfHistory = t.dfHistory ∧
      t'.dfNow = t.dfNow ∧ ∀ key, key ∈ t'.coocTerm ↔ key ∈ t.coocTerm := by
  have hlt : i < g.termInfo.length := by
    rw [hc.termInfo, length_renumberTerms]
    exact (List.getElem?_eq_some_iff.mp ht).1
  have ht' := List.getElem?_eq_getElem hlt
  refine ⟨_, ht', ?_⟩
  simp only [hc.termInfo] at ht' ⊢
  obtain ⟨t₀, ht₀, hr⟩ := renumbered_get ord ht'
  obtain rfl : t = t₀ := Option.some.inj (ht.symm.trans ht₀)
  refine ⟨hr.termstr, hr.dfHistory, hr.dfNow, fun key => ⟨fun hm => ?_, hr.key key⟩⟩
  obtain ⟨slot', hslot'⟩ := HashMap.exists_of_mem hm
  obtain ⟨k, slot, -, -, hslot⟩ := hr.slot key slot' hslot'
  exact HashMap.mem_of_lookup hslot

end

section
variable {s : State} (indexOrd ord : Order) (junk : Nat → List UInt8)

theorem mmapRelate_eq {relates : List UInt8} (h : relates.length < 2 ^ 31) :
    mmapRelate relates =
      if relates = [] then none else some ⟨Int32.ofNat relates.length, relates⟩ := by
  have hle : Int32.ofNat relates.length ≤ 0 ↔ relates = [] := by
    rw [Int32.le_iff_toInt_le, Int32.toInt_ofNat_of_lt h, Int32.toInt_zero,
      ← List.length_eq_zero_iff]
    omega
  simp only [mmapRelate, hle]

theorem createGlobalData_dump (h : Inv s) (hfit : s.Fits) (hname : ∀ t ∈ s.mTermInfo, t.Named)
    (unset : Nat → Nat) (hotTermBuf : List SortItem) :
    ∃ total m, (∀ hash, m.lookup hash = s.mTermIndex.lookup hash) ∧
      createGlobalData unset hotTermBuf (s.dumpIndex indexOrd ord junk).2 =
        (mmapRelate (relateBytes s ord)).map fun fileMmap =>
          ⟨total, m, renumberTerms ord 0 0 s.mTermInfo, fileMmap, hotTermBuf⟩ := by
  obtain ⟨ind1, ind2, m, hind1, hind2, hm, hlookup⟩ :=
    loadTermIndex_dump indexOrd ord junk h hfit
  obtain ⟨terms, hterms, hts⟩ := loadTerms_dumpIndex indexOrd ord junk h hfit hname id
  have htotal := loadTotal_text splitsCounts_SpliteByChar
    (countField_weibo _ (s.dumpIndex indexOrd ord junk).1.total.weiboNum.toNat_lt) unset
    (snprintf 100 (text "data/index/term_info.index"))
  have hnum : s.total.termNum % 2 ^ 32 = s.total.termNum := Nat.mod_eq_of_lt (h.size ▸ hfit.terms)
  simp only [dumpIndex_sorted, hnum] at htotal
  rw [List.map_id] at hts
  refine ⟨⟨s.total.termNum, dumpedRelates s ord, dumpedRelates s ord,
    UInt64.ofNat (readDecimal 64 (unset 3) (decimal s.total.weiboNum.toNat).dropLast)⟩, m, hlookup,
    ?_⟩
  simp only [createGlobalData, loadIndexmmap, hind1, hind2, dumpIndex_n, hterms,
    dumpIndex_relateInfo, dumpIndex_sorted, Option.bind_eq_bind, Option.bind_some, htotal, hm, hts]
  rw [relateBytes, Option.map_eq_bind]
  rfl

/-- The server loads a dump, unless no relation was written. -/
theorem createGlobalData_isSome (h : Inv s) (hfit : s.Fits) (hname : ∀ t ∈ s.mTermInfo, t.Named)
    (hsmall : (relateBytes s ord).length < 2 ^ 31) (unset : Nat → Nat)
    (hotTermBuf : List SortItem) :
    (createGlobalData unset hotTermBuf (s.dumpIndex indexOrd ord junk).2).isSome ↔
      relateBytes s ord ≠ [] := by
  obtain ⟨total, m, -, hload⟩ :=
    createGlobalData_dump indexOrd ord junk h hfit hname unset hotTermBuf
  rw [hload, Option.isSome_map, mmapRelate_eq hsmall]
  split <;> simp [*]

theorem copy_of_createGlobalData (h : Inv s) (hfit : s.Fits) (hname : ∀ t ∈ s.mTermInfo, t.Named)
    (hsmall : (relateBytes s ord).length < 2 ^ 31) {unset : Nat → Nat} {hotTermBuf : List SortItem}
    {g : GlobalData}
    (hg : createGlobalData unset hotTermBuf (s.dumpIndex indexOrd ord junk).2 = some g) :
    Copy ord s g := by
  obtain ⟨total, m, hlookup, hload⟩ :=
    createGlobalData_dump indexOrd ord junk h hfit hname unset hotTermBuf
  rw [hload, mmapRelate_eq hsmall] at hg
  obtain ⟨mm, hmm, rfl⟩ := Option.map_eq_some_iff.mp hg
  split at hmm
  · cases hmm
  · obtain rfl := Option.some.inj hmm
    exact ⟨hlookup, rfl, rfl⟩

end

end TextMining.WordNet.Server
