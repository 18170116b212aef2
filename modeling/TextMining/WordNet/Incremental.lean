import TextMining.WordNet.Counting
import TextMining.WordNet.Reload

/-!
# Incremental indexing

Indexing lines, dumping the index, loading it and indexing more lines gives
the totals of history and present that indexing all lines at once gives.
-/

namespace TextMining.WordNet

open State Cooc

-- ---------------------------------------------------------------------------
-- Totals
-- ---------------------------------------------------------------------------

/-- What does not change when the present is merged into the history. -/
def TermData.total (d : TermData) : List UInt8 × UInt32 := (d.termstr, d.dfHistory + d.dfNow)

def RelateTermInfo.total (r : RelateTermInfo) : UInt32 := r.numHistory + r.numNow

abbrev Totals := Index UInt32 (List UInt8 × UInt32) UInt32

def State.totals (s : State) : Totals := s.view.map TermData.total RelateTermInfo.total

def againTotal (d : List UInt8 × UInt32) : List UInt8 × UInt32 := (d.1, d.2 + 1)

def nextTotal : Option UInt32 → UInt32
  | none => 1
  | some n => n + 1

theorem total_next (r : Option RelateTermInfo) :
    (RelateTermInfo.next r).total = nextTotal (r.map RelateTermInfo.total) := by
  cases r with
  | none => rfl
  | some r => exact (UInt32.add_assoc r.numHistory r.numNow 1).symm

theorem total_again (d : TermData) : d.again.total = againTotal d.total :=
  Prod.ext rfl (UInt32.add_assoc d.dfHistory d.dfNow 1).symm

def TermData.merge (d : TermData) : TermData :=
  { d with dfHistory := d.dfHistory + d.dfNow, dfNow := 0 }

theorem total_merge (d : TermData) : d.merge.total = d.total :=
  Prod.ext rfl (UInt32.add_zero _)

theorem RelateTermInfo.total_merge (r : RelateTermInfo) : r.merge.total = r.total :=
  UInt32.add_zero _

section
variable (hashlittle : List UInt8 → UInt32)

theorem totals_foldl (lines : List Line) (v : View) :
    Index.map TermData.total RelateTermInfo.total (lines.foldl (fun v line => v.addLine .next TermData.again
        (newData hashlittle line.terms) (line.terms.map hashlittle)) v) =
      lines.foldl (fun (w : Totals) line => w.addLine nextTotal againTotal
        (fun hash => (newData hashlittle line.terms hash).total) (line.terms.map hashlittle))
        (v.map TermData.total RelateTermInfo.total) := by
  induction lines generalizing v with
  | nil => rfl
  | cons line lines ih =>
    rw [List.foldl_cons, List.foldl_cons, ih, Index.map_addLine total_next total_again]

theorem named_indexLines (ord : Order) (lines : List Line) :
    ∀ t ∈ (indexLines hashlittle ord State.empty lines).mTermInfo, t.Named := by
  obtain ⟨hinv, -, -, hview⟩ := inv_empty.indexLines_view hashlittle rfl ord lines
  refine fun t ht => hinv.named ?_ ht
  rw [hview]
  refine named_foldl hashlittle lines fun hash e he => ?_
  simp [State.view, State.empty] at he

end

-- ---------------------------------------------------------------------------
-- The same totals
-- ---------------------------------------------------------------------------

structure SameInfo (s s' : State) (t t' : TermInfo) : Prop where
  termstr : t.termstr = t'.termstr
  df : t.dfHistory + t.dfNow = t'.dfHistory + t'.dfNow
  key : ∀ hash, hash ∈ t.coocTerm ↔ hash ∈ t'.coocTerm
  num : ∀ hash slot slot', t.coocTerm.lookup hash = some slot →
    t'.coocTerm.lookup hash = some slot' → ∃ r r', s.mRelateInfo[slot]? = some r ∧
      s'.mRelateInfo[slot']? = some r' ∧ r.numHistory + r.numNow = r'.numHistory + r'.numNow

structure SameTotals (s s' : State) : Prop where
  term : ∀ hash, hash ∈ s.mTermIndex ↔ hash ∈ s'.mTermIndex
  info : ∀ hash ∈ s.mTermIndex, ∃ i i' t t', s.mTermIndex.lookup hash = some i ∧
    s'.mTermIndex.lookup hash = some i' ∧ s.mTermInfo[i]? = some t ∧
    s'.mTermInfo[i']? = some t' ∧ SameInfo s s' t t'
  termNum : s.total.termNum = s'.total.termNum
  weiboNum : s.total.weiboNum = s'.total.weiboNum

section
variable {s s' : State}

theorem SameInfo.of_entry (h : Inv s) (h' : Inv s') {i i' : Nat} {t t' : TermInfo}
    (ht : s.mTermInfo[i]? = some t) (ht' : s'.mTermInfo[i']? = some t')
    (hd : (s.entry t).data.total = (s'.entry t').data.total)
    (hr : ∀ b, ((s.entry t).related b).map RelateTermInfo.total =
      ((s'.entry t').related b).map RelateTermInfo.total) : SameInfo s s' t t' := by
  refine ⟨congrArg Prod.fst hd, congrArg Prod.snd hd, fun b => ?_, ?_⟩
  · have hb := congrArg Option.isSome (hr b)
    simp only [State.entry, Option.isSome_map] at hb
    rw [← AList.lookup_isSome, hb, AList.lookup_isSome]
  · intro b slot slot' hslot hslot'
    have hb := hr b
    simp only [State.entry, hslot, hslot', Option.map_some, Option.some.injEq] at hb
    rw [State.relate, State.relate, List.getElem?_eq_getElem (h.slot_lt ht hslot),
      List.getElem?_eq_getElem (h'.slot_lt ht' hslot')] at hb
    exact ⟨_, _, List.getElem?_eq_getElem _, List.getElem?_eq_getElem _, hb⟩

theorem SameTotals.of_totals (h : Inv s) (h' : Inv s') (ht : s.totals = s'.totals)
    (hw : s.total.weiboNum = s'.total.weiboNum) : SameTotals s s' := by
  have hterm : ∀ hash, hash ∈ s.mTermIndex ↔ hash ∈ s'.mTermIndex := fun hash => by
    have hh := congrArg Option.isNone (congrFun ht hash)
    simp only [State.totals, Index.map, Option.isNone_map] at hh
    rw [← not_iff_not, ← view_eq_none h, ← view_eq_none h', ← Option.isNone_iff_eq_none, hh,
      Option.isNone_iff_eq_none]
  refine ⟨hterm, fun hash hm => ?_, ?_, hw⟩
  · obtain ⟨hi, t, hti⟩ := h.term hm
    obtain ⟨hi', t', hti'⟩ := h'.term ((hterm hash).mp hm)
    refine ⟨_, _, t, t', hi, hi', hti, hti', ?_⟩
    have hh := congrFun ht hash
    simp only [State.totals, Index.map, view_of_lookup hi, view_of_lookup hi', hti, hti',
      Option.map_some, Option.some.injEq, Entry.mk.injEq] at hh
    exact .of_entry h h' hti hti' hh.1 (congrFun hh.2)
  · have hp : s.mTermIndex.keys.Perm s'.mTermIndex.keys :=
      (List.perm_ext_iff_of_nodup s.mTermIndex.keys_nodup s'.mTermIndex.keys_nodup).mpr fun hash =>
        by rw [← AList.mem_keys, ← AList.mem_keys, hterm]
    have hlen := hp.length_eq
    simp only [AList.keys, List.keys, List.length_map] at hlen
    rw [← h.size, ← h'.size, ← h.size_termIndex, ← h'.size_termIndex]
    exact hlen

end

-- ---------------------------------------------------------------------------
-- Incremental and batch
-- ---------------------------------------------------------------------------

section
variable (hashlittle : List UInt8 → UInt32) (ord ord' ordBatch indexOrd ordDump : Order)
  (junk : Nat → List UInt8) (unset : Nat → Nat) (relateInfo : List UInt8)

/-- Whatever the orders in which the maps are visited, the dump of the first
lines loads, and the other lines indexed after it end at the totals of a
single run over all lines. -/
theorem incremental_eq_batch (lines lines' : List Line)
    (hfit : (indexLines hashlittle ord State.empty lines).Fits) :
    ∃ s, loadIndex unset relateInfo
        ((indexLines hashlittle ord State.empty lines).dumpIndex indexOrd ordDump junk).2 = some s ∧
      SameTotals (indexLines hashlittle ord' s lines')
        (indexLines hashlittle ordBatch State.empty (lines ++ lines')) := by
  obtain ⟨hinv, -, hweibo, hview⟩ := inv_empty.indexLines_view hashlittle rfl ord lines
  obtain ⟨s, hs, hl, hm, hw⟩ := loadIndex_dumpIndex indexOrd ordDump junk hinv hfit
    (named_indexLines hashlittle ord lines) unset relateInfo
  have hloaded : Inv s := hl.inv hinv fun t => ⟨rfl, rfl⟩
  obtain ⟨hinv', -, hweibo', hview'⟩ := hloaded.indexLines_view hashlittle hm ord' lines'
  obtain ⟨hinvB, -, hweiboB, hviewB⟩ :=
    inv_empty.indexLines_view hashlittle rfl ordBatch (lines ++ lines')
  have htotals : s.totals = (indexLines hashlittle ord State.empty lines).totals := by
    rw [State.totals, hl.view (f := .merge) (fun t => rfl) fun t => rfl, State.totals]
    funext hash
    simp only [Index.map, Option.map_map, Function.comp_def, total_merge,
      RelateTermInfo.total_merge]
  refine ⟨s, hs, .of_totals hinv' hinvB ?_ ?_⟩
  · have hsplit : (indexLines hashlittle ordBatch State.empty (lines ++ lines')).totals =
        lines'.foldl (fun (w : Totals) line => w.addLine nextTotal againTotal
          (fun hash => (newData hashlittle line.terms hash).total) (line.terms.map hashlittle))
          (indexLines hashlittle ord State.empty lines).totals := by
      rw [State.totals, hviewB, List.foldl_append, ← hview, totals_foldl]
      rfl
    rw [hsplit, ← htotals, State.totals, hview', totals_foldl]
    rfl
  · rw [hweibo', hw, hweibo, hweiboB, List.length_append, UInt64.ofNat_add, UInt64.add_assoc]

end

/-- The same line before and after a dump. -/
theorem incremental_eq_batch_ab :
    let hashlittle := JenkinsHash.hashString
    let ord : Order := IterOrder.held _ _
    (indexLines hashlittle ord State.empty [lineAB]).Fits ∧
      ∃ s, loadIndex (fun _ => 0) (text "data/index/relate_info.index")
          ((indexLines hashlittle ord State.empty [lineAB]).dumpIndex ord ord fun _ => []).2 =
          some s ∧
        SameTotals (indexLines hashlittle ord s [lineAB])
          (indexLines hashlittle ord State.empty [lineAB, lineAB]) := by
  have hfit : (indexLines JenkinsHash.hashString (IterOrder.held _ _) State.empty [lineAB]).Fits := ⟨by decide +kernel, by decide +kernel⟩
  exact ⟨hfit, incremental_eq_batch _ _ _ _ _ _ _ _ _ [lineAB] [lineAB] hfit⟩

end TextMining.WordNet
