import TextMining.WordNet.Counting

/-!
# What the terms count

Whichever allocations fail while lines are indexed, the entry of each term
still counts the lines that have it: a pair that finds no room loses records,
but touches no counter of a term.
-/

namespace TextMining.WordNet

open State Cooc

structure LineRun where
  line : Line
  alloc : Nat × Nat → Alloc
  ord : Order

def LineRun.cmd (r : LineRun) : Cmd := .parseLineTerms r.line r.alloc r.ord

def indexRuns (hashlittle : List UInt8 → UInt32) (s : State) (runs : List LineRun) : State :=
  run hashlittle s (runs.map LineRun.cmd)

def TermInfo.data (t : TermInfo) : TermData := ⟨t.termstr, t.dfHistory, t.dfNow⟩

section
variable {s : State}

theorem dataOf_view (hash : UInt32) :
    s.view.dataOf hash = (s.mTermIndex.lookup hash).bind fun i =>
      (s.mTermInfo.map TermInfo.data)[i]? := by
  cases hl : s.mTermIndex.lookup hash with
  | none => simp [Index.dataOf, State.view, hl]
  | some i =>
    rw [Option.bind_some, List.getElem?_map, Index.dataOf, view_of_lookup hl, Option.map_map]
    rfl

-- ---------------------------------------------------------------------------
-- Pairs
-- ---------------------------------------------------------------------------

theorem map_modify_data (i : Nat) {f : TermInfo → TermInfo} (hf : ∀ t, (f t).data = t.data)
    (ts : List TermInfo) : (ts.modify i f).map TermInfo.data = ts.map TermInfo.data := by
  induction ts generalizing i with
  | nil => cases i <;> rfl
  | cons t ts ih =>
    cases i with
    | zero => rw [List.modify_zero_cons, List.map_cons, List.map_cons, hf]
    | succ i => rw [List.modify_succ_cons, List.map_cons, List.map_cons, ih]

theorem addCooc_data (hash : UInt32) (slot : Nat) (t : TermInfo) :
    (t.addCooc hash slot).data = t.data := rfl

theorem sweepIndex_data (ord : Order) (skip : TermInfo → Bool)
    (keep : TermInfo → List (Σ _ : UInt32, Nat) → Nat → (Σ _ : UInt32, Nat) → Bool) :
    (s.sweepIndex ord skip keep).mTermInfo.map TermInfo.data = s.mTermInfo.map TermInfo.data := by
  have hts := (sweepTerms_spec ord skip keep 0 s.mTermInfo s.mRelateIndexSlot).1
  have hdata : ∀ {ts ts' : List TermInfo}, List.Forall₂ Swept ts ts' →
      ts'.map TermInfo.data = ts.map TermInfo.data := by
    intro ts ts' h
    induction h with
    | nil => rfl
    | cons hsw _ ih =>
      rw [List.map_cons, List.map_cons, ih, TermInfo.data, TermInfo.data, hsw.termstr,
        hsw.dfHistory, hsw.dfNow]
  exact hdata hts

theorem slotSource_data (alloc : Alloc) (ord : Order) :
    (slotSource s alloc ord).mTermInfo.map TermInfo.data = s.mTermInfo.map TermInfo.data := by
  unfold slotSource
  split
  · rfl
  · split
    · exact sweepIndex_data (s := s.pushRelate) ord _ _
    · exact sweepIndex_data ord _ _

theorem PairStep.data {hashI hashJ : UInt32} {alloc : Alloc} {ord : Order}
    {r : Except State State} (hr : PairStep s hashI hashJ alloc ord r) :
    (outcome r).mTermInfo.map TermInfo.data = s.mTermInfo.map TermInfo.data := by
  cases hr with
  | bump => rfl
  | append =>
    rw [outcome, setCooc_countRelate]
    exact map_modify_data _ (addCooc_data _ _) _
  | reuse =>
    rw [outcome, setCooc_countRelate]
    exact (map_modify_data _ (addCooc_data _ _) _).trans (slotSource_data alloc ord)
  | fail => exact slotSource_data alloc ord

-- ---------------------------------------------------------------------------
-- Lines
-- ---------------------------------------------------------------------------

variable (hashlittle : List UInt8 → UInt32)

theorem Inv.parseLineTerms_data (h : Inv s) (line : Line) (alloc : Nat × Nat → Alloc)
    (ord : Order) :
    (s.parseLineTerms hashlittle line alloc ord).view.dataOf =
      (s.view.addLine .next TermData.again (newData hashlittle line.terms)
        (line.terms.map hashlittle)).dataOf := by
  obtain ⟨hs, hrec⟩ := h.scanTerms hashlittle line.terms
  set scanned := s.scanTerms hashlittle line.terms with hscanned
  obtain ⟨-, hidx, hdata⟩ : _ ∧ (outcome (scanned.1.addCooc scanned.2 alloc ord)).mTermIndex = _ ∧ _ :=
    hs.addCooc_keeps hrec
      (Q := fun s' => s'.mTermInfo.map TermInfo.data = scanned.1.mTermInfo.map TermInfo.data) rfl
      fun s' p _ hs' _ hq => ((hs'.addPair_step _ _ (alloc p) ord).data).trans hq
  have hcooc : (s.parseLineTerms hashlittle line alloc ord).view.dataOf =
      scanned.1.view.dataOf := by
    funext hash
    simp only [parseLineTerms_eq, State.indexTerms, dataOf_view, ← hscanned, hidx, hdata]
  rw [hcooc]
  funext hash
  rw [Index.dataOf, hscanned, view_scanTerms hashlittle h, Index.dataOf, Index.addLine]
  split
  · rw [Option.map_map]
    rfl
  · rfl

theorem Inv.indexRuns_data (h : Inv s) {v : View} (hv : s.view.dataOf = v.dataOf)
    (runs : List LineRun) :
    Inv (indexRuns hashlittle s runs) ∧
      (indexRuns hashlittle s runs).view.dataOf =
        ((runs.map LineRun.line).foldl (fun v line => v.addLine .next TermData.again
          (newData hashlittle line.terms) (line.terms.map hashlittle)) v).dataOf := by
  induction runs generalizing s v with
  | nil => exact ⟨h, hv⟩
  | cons r runs ih =>
    refine ih (h.parseLineTerms hashlittle r.line r.alloc r.ord) ?_
    rw [h.parseLineTerms_data hashlittle]
    exact Index.dataOf_addLine _ _ _ hv _

variable {runs : List LineRun}

omit s in
theorem inv_indexRuns : Inv (indexRuns hashlittle State.empty runs) :=
  (inv_empty.indexRuns_data hashlittle rfl runs).1

omit s in
theorem indexRuns_data (hinj : Set.InjOn hashlittle {t | Occurs (runs.map LineRun.line) t}) :
    (indexRuns hashlittle State.empty runs).view.dataOf =
      (lineTally hashlittle (runs.map LineRun.line)).dataOf := by
  rw [(inv_empty.indexRuns_data hashlittle rfl runs).2, foldl_lines hashlittle hinj]

omit s in
theorem indexRuns_entry (hinj : Set.InjOn hashlittle {t | Occurs (runs.map LineRun.line) t})
    {t : List UInt8} (ht : Occurs (runs.map LineRun.line) t) :
    ∃ i info, (indexRuns hashlittle State.empty runs).mTermIndex.lookup (hashlittle t) = some i ∧
      (indexRuns hashlittle State.empty runs).mTermInfo[i]? = some info ∧
      info.dfNow = UInt32.ofNat (occurrences ((runs.map LineRun.line).map Line.terms) t) := by
  have hd := congrFun (indexRuns_data hashlittle hinj) (hashlittle t)
  rw [dataOf_view, Index.dataOf, lineTally_entry hashlittle hinj ht, Option.map_some,
    Option.bind_eq_some_iff] at hd
  obtain ⟨i, hi, hinfo⟩ := hd
  rw [List.getElem?_map, Option.map_eq_some_iff] at hinfo
  obtain ⟨info, hget, hinfo⟩ := hinfo
  exact ⟨i, info, hi, hget, congrArg TermData.dfNow hinfo⟩

omit s in
theorem occurs_of_indexRuns (hinj : Set.InjOn hashlittle {t | Occurs (runs.map LineRun.line) t})
    {hash : UInt32} (hm : hash ∈ (indexRuns hashlittle State.empty runs).mTermIndex) :
    ∃ t, Occurs (runs.map LineRun.line) t ∧ hashlittle t = hash := by
  refine occurs_of_lineTally hashlittle fun hnone => ?_
  have hd := congrFun (indexRuns_data hashlittle hinj) hash
  rw [Index.dataOf, Index.dataOf, hnone, Option.map_none, Option.map_eq_none_iff,
    view_eq_none (inv_indexRuns hashlittle)] at hd
  exact hd hm

end

end TextMining.WordNet
