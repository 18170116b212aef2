import TextMining.WordNet.Incremental
import TextMining.WordNet.Lookup

/-!
# Day after day

The program runs once for every file of lines: it loads the index of the run
before, indexes the lines, drops relations and dumps the index. Whatever is
dropped on the way and whichever allocations fail, the index knows how many
lines of all the runs have a term.
-/

namespace TextMining.WordNet

open State Cooc

/-- The lines of a run, and what the program does not fix. -/
structure MakeRun where
  lines : List LineRun
  filtOrd : Order
  indexOrd : Order
  dumpOrd : Order
  junk : Nat → List UInt8
  unset : Nat → Nat

def MakeRun.index (hashlittle : List UInt8 → UInt32) (K : Nat) (r : MakeRun) (s : State) : State :=
  (indexRuns hashlittle s r.lines).filtIndex K r.filtOrd

def MakeRun.dump (r : MakeRun) (s : State) : IndexFiles :=
  (s.dumpIndex r.indexOrd r.dumpOrd r.junk).2

/-- The indices that runs end with: the first one has no history to load, and
every other one loads the dump of the run before. -/
inductive Reached (hashlittle : List UInt8 → UInt32) (K : Nat) (relateInfo : List UInt8) :
    List MakeRun → MakeRun → State → Prop
  | first (r : MakeRun) :
    Reached hashlittle K relateInfo [] r (r.index hashlittle K State.empty)
  | next {rs : List MakeRun} {r : MakeRun} {s s' : State} (r' : MakeRun) :
    Reached hashlittle K relateInfo rs r s → s.Fits →
    loadIndex r'.unset relateInfo (r.dump s) = some s' →
    Reached hashlittle K relateInfo (rs ++ [r]) r' (r'.index hashlittle K s')

def linesOf (rs : List MakeRun) : List Line := rs.flatMap fun r => r.lines.map LineRun.line

variable (hashlittle : List UInt8 → UInt32)

def addTotals (w : Totals) (lines : List Line) : Totals :=
  lines.foldl (fun w line => w.addLine nextTotal againTotal
    (fun hash => (newData hashlittle line.terms hash).total) (line.terms.map hashlittle)) w

structure Counting (lines : List Line) (s : State) : Prop where
  inv : Inv s
  totals : s.totals.dataOf = (addTotals hashlittle Index.empty lines).dataOf
  named : ∀ hash e, s.view hash = some e → e.data.Named
  weiboNum : s.total.weiboNum = UInt64.ofNat lines.length

section
variable {hashlittle} {s s' : State} {lines : List Line} {K : Nat}

theorem dataOf_map {D' R' : Type} (f : TermData → D') (g : RelateTermInfo → R') (v : View) :
    (v.map f g).dataOf = fun hash => (v.dataOf hash).map f := by
  funext hash
  simp [Index.dataOf, Index.map, Option.map_map, Function.comp_def]

theorem dataOf_totals : s.totals.dataOf = fun hash => (s.view.dataOf hash).map TermData.total :=
  dataOf_map _ _ _

theorem dataOf_addTotals {w w' : Totals} (h : w.dataOf = w'.dataOf) (lines : List Line) :
    (addTotals hashlittle w lines).dataOf = (addTotals hashlittle w' lines).dataOf := by
  induction lines generalizing w w' with
  | nil => exact h
  | cons line lines ih => exact ih (Index.dataOf_addLine _ _ _ h _)

theorem named_iff_dataOf {v : View} : (∀ hash e, v hash = some e → e.data.Named) ↔
    ∀ hash d, v.dataOf hash = some d → d.Named := by
  constructor
  · intro h hash d hd
    obtain ⟨e, he, rfl⟩ := Option.map_eq_some_iff.mp hd
    exact h hash e he
  · intro h hash e he
    exact h hash e.data (by rw [Index.dataOf, he, Option.map_some])

theorem Counting.congr (h : Counting hashlittle lines s) (hinv : Inv s')
    (hdata : s'.view.dataOf = s.view.dataOf) (hw : s'.total.weiboNum = s.total.weiboNum) :
    Counting hashlittle lines s' where
  inv := hinv
  totals := by rw [dataOf_totals, hdata, ← dataOf_totals, h.totals]
  named := named_iff_dataOf.mpr (hdata ▸ named_iff_dataOf.mp h.named)
  weiboNum := hw.trans h.weiboNum

theorem counting_empty : Counting hashlittle [] State.empty where
  inv := inv_empty
  totals := by rw [State.totals, view_empty]; rfl
  named := by simp [view_empty, Index.empty]
  weiboNum := rfl

-- ---------------------------------------------------------------------------
-- Indexing
-- ---------------------------------------------------------------------------

theorem Inv.parseLineTerms_weiboNum (h : Inv s) (line : Line) (alloc : Nat × Nat → Alloc)
    (ord : Order) : (s.parseLineTerms hashlittle line alloc ord).total.weiboNum =
      s.total.weiboNum + 1 := by
  obtain ⟨hs, hrec⟩ := h.scanTerms hashlittle line.terms
  set scanned := s.scanTerms hashlittle line.terms with hscanned
  have hsame : SameTerms scanned.1 (outcome (scanned.1.addCooc scanned.2 alloc ord)) :=
    (hs.addCooc_keeps hrec ⟨rfl, rfl, rfl⟩ fun s' p _ hs' _ hq =>
      hq.trans (hs'.addPair_step _ _ (alloc p) ord).sameTerms).2.2
  rw [parseLineTerms_eq, State.indexTerms]
  change (outcome (scanned.1.addCooc scanned.2 alloc ord)).total.weiboNum + 1 = _
  rw [hsame.weiboNum, hscanned, scanTerms_weiboNum]

theorem Inv.indexRuns_weiboNum (h : Inv s) (runs : List LineRun) :
    (indexRuns hashlittle s runs).total.weiboNum = s.total.weiboNum + UInt64.ofNat runs.length := by
  induction runs generalizing s with
  | nil => exact (UInt64.add_zero _).symm
  | cons r runs ih =>
    have hr : Inv (s.parseLineTerms hashlittle r.line r.alloc r.ord) :=
      (h.indexRuns_data hashlittle rfl [r]).1
    refine (ih hr).trans ?_
    rw [h.parseLineTerms_weiboNum, List.length_cons, UInt64.ofNat_add, UInt64.add_assoc,
      UInt64.add_comm 1]
    rfl

theorem Counting.indexRuns (h : Counting hashlittle lines s) (runs : List LineRun) :
    Counting hashlittle (lines ++ runs.map LineRun.line) (indexRuns hashlittle s runs) := by
  obtain ⟨hinv, hdata⟩ := h.inv.indexRuns_data hashlittle rfl runs
  have hfold := totals_foldl hashlittle (runs.map LineRun.line) s.view
  refine ⟨hinv, ?_, ?_, ?_⟩
  · rw [dataOf_totals, hdata, ← dataOf_map TermData.total RelateTermInfo.total, hfold]
    rw [addTotals, List.foldl_append]
    exact dataOf_addTotals h.totals _
  · refine named_iff_dataOf.mpr ?_
    rw [hdata]
    exact named_iff_dataOf.mp (named_foldl hashlittle _ h.named)
  · rw [h.inv.indexRuns_weiboNum, h.weiboNum, List.length_append, List.length_map,
      UInt64.ofNat_add]

theorem Counting.filtIndex (h : Counting hashlittle lines s) (ord : Order) :
    Counting hashlittle lines (s.filtIndex K ord) := by
  refine h.congr (Inv.sweepIndex _ _ _ h.inv) ?_ rfl
  funext hash
  rw [dataOf_view, dataOf_view, State.filtIndex, sweepIndex_data]
  rfl

theorem Counting.load (h : Counting hashlittle lines s) (hfit : s.Fits) (r : MakeRun)
    (unset : Nat → Nat) (relateInfo : List UInt8) :
    ∃ s', loadIndex unset relateInfo (r.dump s) = some s' ∧ Counting hashlittle lines s' := by
  obtain ⟨s', hs', hl, -, hw⟩ := loadIndex_dumpIndex r.indexOrd r.dumpOrd r.junk h.inv hfit
    (fun t ht => h.inv.named h.named ht) unset relateInfo
  have hview := hl.view (f := .merge) (fun t => rfl) fun t => rfl
  refine ⟨s', hs', hl.inv h.inv fun t => ⟨rfl, rfl⟩, ?_, ?_, hw.trans h.weiboNum⟩
  · rw [← h.totals, dataOf_totals, hview, dataOf_map, dataOf_totals]
    funext hash
    rw [Option.map_map]
    exact Option.map_congr fun d _ => total_merge d
  · refine named_iff_dataOf.mpr fun hash d hd => ?_
    rw [hview, dataOf_map] at hd
    obtain ⟨d', hd', rfl⟩ := Option.map_eq_some_iff.mp hd
    exact named_iff_dataOf.mp h.named hash d' hd'

/-- Every index that runs reach counts the lines of all of them. -/
theorem Reached.counting {relateInfo : List UInt8} {rs : List MakeRun} {r : MakeRun}
    (h : Reached hashlittle K relateInfo rs r s) :
    Counting hashlittle (linesOf (rs ++ [r])) s := by
  induction h with
  | first r =>
    have hr := (counting_empty : Counting hashlittle [] State.empty).indexRuns r.lines
    simpa [linesOf, MakeRun.index] using hr.filtIndex r.filtOrd
  | next r' _ hfit hload ih =>
    obtain ⟨s₁, hs₁, hc⟩ := ih.load hfit _ r'.unset relateInfo
    cases hs₁.symm.trans hload
    have hr := (hc.indexRuns r'.lines).filtIndex (K := K) r'.filtOrd
    simpa [linesOf, MakeRun.index] using hr

/-- The terms and their totals, once no two terms share a hash. -/
theorem Counting.total (h : Counting hashlittle lines s)
    (hinj : Set.InjOn hashlittle {t | Occurs lines t}) (hash : UInt32) :
    (s.view.dataOf hash).map TermData.total =
      ((lineTally hashlittle lines).dataOf hash).map TermData.total := by
  have htally : addTotals hashlittle Index.empty lines =
      (lineTally hashlittle lines).map TermData.total RelateTermInfo.total := by
    rw [← foldl_lines hashlittle hinj, totals_foldl, view_empty]
    rfl
  have ht := congrFun h.totals hash
  rwa [dataOf_totals, htally, dataOf_map] at ht

theorem Counting.entry (h : Counting hashlittle lines s)
    (hinj : Set.InjOn hashlittle {t | Occurs lines t}) {t : List UInt8} (ht : Occurs lines t) :
    ∃ i info, s.mTermIndex.lookup (hashlittle t) = some i ∧ s.mTermInfo[i]? = some info ∧
      info.termstr = snprintf 64 t ∧ info.dfHistory + info.dfNow =
        UInt32.ofNat (occurrences (lines.map Line.terms) t) := by
  have hd := h.total hinj (hashlittle t)
  rw [dataOf_view, Index.dataOf, lineTally_entry hashlittle hinj ht, Option.map_some,
    Option.map_some, Option.map_eq_some_iff] at hd
  obtain ⟨d, hd, htotal⟩ := hd
  obtain ⟨i, hi, hinfo⟩ := Option.bind_eq_some_iff.mp hd
  rw [List.getElem?_map, Option.map_eq_some_iff] at hinfo
  obtain ⟨info, hget, rfl⟩ := hinfo
  refine ⟨i, info, hi, hget, congrArg Prod.fst htotal, ?_⟩
  exact (congrArg Prod.snd htotal).trans (UInt32.zero_add _)

theorem Counting.occurs (h : Counting hashlittle lines s)
    (hinj : Set.InjOn hashlittle {t | Occurs lines t}) {hash : UInt32} (hm : hash ∈ s.mTermIndex) :
    ∃ t, Occurs lines t ∧ hashlittle t = hash := by
  refine occurs_of_lineTally hashlittle fun hnone => ?_
  have hd := h.total hinj hash
  rw [Index.dataOf, Index.dataOf, hnone, Option.map_none, Option.map_none,
    Option.map_eq_none_iff, Option.map_eq_none_iff, view_eq_none h.inv] at hd
  exact hd hm

/-- What the runs end with: whatever `FiltIndex` drops, the documents of each term
are counted over all runs, and the dump can be loaded by the next run. -/
theorem reached_counts {relateInfo : List UInt8} {rs : List MakeRun} {r : MakeRun}
    (h : Reached hashlittle K relateInfo rs r s)
    (hinj : Set.InjOn hashlittle {t | Occurs (linesOf (rs ++ [r])) t}) :
    (∀ t, Occurs (linesOf (rs ++ [r])) t → ∃ i info,
      s.mTermIndex.lookup (hashlittle t) = some i ∧ s.mTermInfo[i]? = some info ∧
        info.termstr = snprintf 64 t ∧ info.dfHistory + info.dfNow =
          UInt32.ofNat (occurrences ((linesOf (rs ++ [r])).map Line.terms) t)) ∧
      (∀ hash ∈ s.mTermIndex, ∃ t, Occurs (linesOf (rs ++ [r])) t ∧ hashlittle t = hash) ∧
      s.total.weiboNum = UInt64.ofNat (linesOf (rs ++ [r])).length ∧
      (s.Fits → ∀ unset, ∃ s', loadIndex unset relateInfo (r.dump s) = some s') := by
  have hc := h.counting
  refine ⟨fun t ht => hc.entry hinj ht, fun hash hm => hc.occurs hinj hm, hc.weiboNum,
    fun hfit unset => ?_⟩
  obtain ⟨s', hs', -⟩ := hc.load hfit r unset relateInfo
  exact ⟨s', hs'⟩

end

def runAB : MakeRun where
  lines := [⟨lineAB, fun _ => .ok, IterOrder.held _ _⟩]
  filtOrd := IterOrder.held _ _
  indexOrd := IterOrder.held _ _
  dumpOrd := IterOrder.held _ _
  junk := fun _ => []
  unset := fun _ => 0

theorem injOn_runAB {rs : List MakeRun} (hrs : ∀ r ∈ rs, r = runAB) :
    Set.InjOn JenkinsHash.hashString {t | Occurs (linesOf rs) t} := by
  have hterms : lineAB.terms = [[97], [98]] := by decide +kernel
  refine injOn_ab ?_
  rintro t ⟨line, hline, ht⟩
  obtain ⟨r, hr, hline⟩ := List.mem_flatMap.mp hline
  rw [hrs r hr] at hline
  obtain rfl : line = lineAB := by simpa [runAB] using hline
  simpa [hterms] using ht

/-- Two runs over one line. -/
theorem reached_counts_ab :
    let hashlittle := JenkinsHash.hashString
    let lines := linesOf [runAB, runAB]
    ∃ s, Reached hashlittle 100 (text "data/index/relate_info.index") [runAB] runAB s ∧
      (∀ t, Occurs lines t → ∃ i info,
        s.mTermIndex.lookup (hashlittle t) = some i ∧ s.mTermInfo[i]? = some info ∧
          info.termstr = snprintf 64 t ∧ info.dfHistory + info.dfNow =
            UInt32.ofNat (occurrences (lines.map Line.terms) t)) ∧
        (∀ hash ∈ s.mTermIndex, ∃ t, Occurs lines t ∧ hashlittle t = hash) ∧
        s.total.weiboNum = UInt64.ofNat lines.length ∧
        (s.Fits → ∀ unset, ∃ s',
          loadIndex unset (text "data/index/relate_info.index") (runAB.dump s) = some s') := by
  intro hashlittle lines
  have hfirst : Reached hashlittle 100 (text "data/index/relate_info.index") [] runAB _ :=
    .first runAB
  have hfit : (runAB.index hashlittle 100 State.empty).Fits := ⟨by decide +kernel, by decide +kernel⟩
  obtain ⟨s', hload, -⟩ := hfirst.counting.load hfit runAB runAB.unset
    (text "data/index/relate_info.index")
  exact ⟨_, hfirst.next runAB hfit hload,
    reached_counts (hfirst.next runAB hfit hload) (injOn_runAB (by simp))⟩

-- ---------------------------------------------------------------------------
-- The server
-- ---------------------------------------------------------------------------

namespace Server

/-- What a server has for a term: its totals over the lines, and the records of
the relations that the index `s` has for it. -/
def Serves (hashlittle : List UInt8 → UInt32) (lines : List Line) (s : State) (g : GlobalData)
    (t : List UInt8) : Prop :=
  ∃ index info, g.termIndex.lookup (hashlittle t) = some index ∧
    g.termInfo[index]? = some info ∧ info.termstr = snprintf 64 t ∧
    info.dfHistory + info.dfNow = UInt32.ofNat (occurrences (lines.map Line.terms) t) ∧
    (∀ key, key ∈ info.coocTerm ↔ s.findCooc (s.termIndex (hashlittle t)) key ≠ none) ∧
    ∀ key slot, info.coocTerm.lookup key = some slot → ∃ slot',
      s.findCooc (s.termIndex (hashlittle t)) key = some slot' ∧
        g.fileMmap.relateInfo (relateOffset slot) = some (s.relate slot')

variable {hashlittle : List UInt8 → UInt32} {lines : List Line} {s : State} {g : GlobalData}
  {ord : Order} {K : Nat}

theorem Copy.serves (hcopy : Copy ord s g) (hsmall : (relateBytes s ord).length < 2 ^ 31)
    (hc : Counting hashlittle lines s) (hinj : Set.InjOn hashlittle {t | Occurs lines t})
    {t : List UInt8} (ht : Occurs lines t) : Serves hashlittle lines s g t := by
  obtain ⟨i, info, hi, hinfo, hstr, htotal⟩ := hc.entry hinj ht
  have hidx : s.termIndex (hashlittle t) = i := by rw [State.termIndex, hi, Option.getD_some]
  have hfind : ∀ key, s.findCooc i key = info.coocTerm.lookup key := fun key => by
    rw [State.findCooc, hinfo, Option.bind_some]
  obtain ⟨info', hinfo', hstr', hhistory, hnow, hkey⟩ := hcopy.term hinfo
  refine ⟨i, info', (hcopy.termIndex _).trans hi, hinfo', hstr'.trans hstr, ?_,
    fun key => ?_, fun key slot hslot => ?_⟩
  · rw [hhistory, hnow, htotal]
  · rw [hidx, hfind, hkey, Ne, AList.lookup_eq_none, not_not]
  · obtain ⟨info₁, slot', hinfo₁, hslot', hrec⟩ := hcopy.record hsmall hinfo' hslot
    obtain rfl : info = info₁ := Option.some.inj (hinfo.symm.trans hinfo₁)
    exact ⟨slot', by rw [hidx, hfind, hslot'], hrec⟩

/-- The server loads what the last run dumped unless no relation is left, and has
the totals of all runs for their terms and nothing else. -/
theorem reached_served {relateInfo : List UInt8} {rs : List MakeRun} {r : MakeRun}
    (h : Reached hashlittle K relateInfo rs r s)
    (hinj : Set.InjOn hashlittle {t | Occurs (linesOf (rs ++ [r])) t}) (hfit : s.Fits)
    (hsmall : (relateBytes s r.dumpOrd).length < 2 ^ 31) (unset : Nat → Nat)
    (hotTermBuf : List SortItem) :
    ((createGlobalData unset hotTermBuf (r.dump s)).isSome ↔ s.usedSlots ≠ []) ∧
      ∀ g, createGlobalData unset hotTermBuf (r.dump s) = some g →
        (∀ t, Occurs (linesOf (rs ++ [r])) t → Serves hashlittle (linesOf (rs ++ [r])) s g t) ∧
          ∀ hash ∈ g.termIndex, ∃ t, Occurs (linesOf (rs ++ [r])) t ∧ hashlittle t = hash := by
  have hc := h.counting
  have hname : ∀ t ∈ s.mTermInfo, t.Named := fun t ht => hc.inv.named hc.named ht
  refine ⟨?_, fun g hg => ?_⟩
  · rw [Ne, ← relateBytes_eq_nil r.dumpOrd]
    exact createGlobalData_isSome r.indexOrd r.dumpOrd r.junk hc.inv hfit hname hsmall unset hotTermBuf
  · have hcopy := copy_of_createGlobalData r.indexOrd r.dumpOrd r.junk hc.inv hfit hname hsmall hg
    refine ⟨fun t ht => Copy.serves hcopy hsmall hc hinj ht, fun hash hm => ?_⟩
    refine hc.occurs hinj ?_
    rwa [← AList.lookup_isSome, ← hcopy.termIndex, AList.lookup_isSome]

/-- The second of two runs, which loads what the first one dumped. -/
theorem reached_served_ab :
    let hashlittle := JenkinsHash.hashString
    let lines := linesOf [runAB, runAB]
    ∃ s, Reached hashlittle 100 (text "data/index/relate_info.index") [runAB] runAB s ∧
      ((createGlobalData (fun _ => 0) [] (runAB.dump s)).isSome ↔ s.usedSlots ≠ []) ∧
        ∀ g, createGlobalData (fun _ => 0) [] (runAB.dump s) = some g →
          (∀ t, Occurs lines t → Serves hashlittle lines s g t) ∧
            ∀ hash ∈ g.termIndex, ∃ t, Occurs lines t ∧ hashlittle t = hash := by
  intro hashlittle lines
  have hfirst : Reached hashlittle 100 (text "data/index/relate_info.index") [] runAB _ :=
    .first runAB
  have hsizes : (loadIndex runAB.unset (text "data/index/relate_info.index")
      (runAB.dump (runAB.index hashlittle 100 State.empty))).map (fun s =>
        ((runAB.index hashlittle 100 s).mTermInfo.length,
          (runAB.index hashlittle 100 s).mRelateInfo.length,
          (relateBytes (runAB.index hashlittle 100 s) runAB.dumpOrd).length)) =
      some (2, 2, 24) := by
    decide +kernel
  obtain ⟨s', hload, hsizes⟩ := Option.map_eq_some_iff.mp hsizes
  rw [Prod.mk.injEq, Prod.mk.injEq] at hsizes
  obtain ⟨hterms, hrelates, hbytes⟩ := hsizes
  have hsecond := hfirst.next runAB ⟨by decide +kernel, by decide +kernel⟩ hload
  exact ⟨_, hsecond, reached_served hsecond (injOn_runAB (by simp))
    ⟨by rw [hterms]; decide, by rw [hrelates]; decide⟩ (by rw [hbytes]; decide) _ _⟩

end Server

end TextMining.WordNet
