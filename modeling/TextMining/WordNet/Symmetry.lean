import TextMining.WordNet.Recycle

/-!
# Symmetry of co-occurrence

The pairs (a, b) and (b, a) are stored by different steps of `AddCooc`, which
can give up in between, and a slot that is used again brings its old counts to
one of them only. `symmetric_run` says which steps keep the index symmetric;
`half_recorded` is a line that does not.
-/

namespace TextMining.WordNet

open State Cooc

def State.Symmetric (s : State) : Prop :=
  ∀ hashA ∈ s.mTermIndex, ∀ hashB ∈ s.mTermIndex,
    (s.findCooc (s.termIndex hashA) hashB).map s.relate =
      (s.findCooc (s.termIndex hashB) hashA).map s.relate

-- ---------------------------------------------------------------------------
-- Pruning by counts
-- ---------------------------------------------------------------------------

structure SweptBy (keep : (Σ _ : UInt32, Nat) → Bool) (t t' : TermInfo) : Prop where
  data : (⟨t'.termstr, t'.dfHistory, t'.dfNow⟩ : TermData) = ⟨t.termstr, t.dfHistory, t.dfNow⟩
  lookup : ∀ hash, t'.coocTerm.lookup hash =
    (t.coocTerm.lookup hash).filter fun slot => keep ⟨hash, slot⟩

theorem sweepTerms_by (ord : Order) (keep : (Σ _ : UInt32, Nat) → Bool) (i : Nat)
    (ts : List TermInfo) (free : List Nat) :
    List.Forall₂ (SweptBy keep) ts
      (sweepTerms ord (fun _ => false) (fun _ _ _ => keep) i ts free).1 := by
  induction ts generalizing i free with
  | nil => exact .nil
  | cons t ts ih =>
    unfold sweepTerms
    refine .cons ⟨rfl, fun hash => ?_⟩ (ih (i + 1) _)
    have hl := HashMap.lookup_sweep keep (ord.nodup_walk i t.coocTerm)
      (fun e he => ord.mem_walk.mp he) 0 free hash
    refine hl.trans ?_
    split
    · rfl
    · rename_i hn
      have hnone : t.coocTerm.lookup hash = none := by
        cases hs : t.coocTerm.lookup hash with
        | none => rfl
        | some slot =>
          have hm : (⟨hash, slot⟩ : Σ _ : UInt32, Nat) ∈ ord.walk i t.coocTerm := ord.mem_walk.mpr hs
          exact absurd (List.mem_map_of_mem hm) hn
      rw [hnone]
      rfl

/-- Records with a count below the threshold are dropped by `SortIndex(int)`. -/
def keepRelate (threshold : Int32) (r : RelateTermInfo) : Bool :=
  !(r.numHistory + r.numNow < threshold.toUInt32)

section
variable {s : State}

theorem view_sortIndexInt (threshold : Int32) (ord : Order) :
    (s.sortIndexInt threshold ord).view = s.view.prune (keepRelate threshold) := by
  have hts := sweepTerms_by ord (fun e => !(s.relation e.2 < threshold.toUInt32)) 0 s.mTermInfo
    s.mRelateIndexSlot
  have hentry : ∀ i : Nat, (s.sortIndexInt threshold ord).mTermInfo[i]?.map
      (s.sortIndexInt threshold ord).entry = s.mTermInfo[i]?.map fun t =>
        { s.entry t with related := fun b => ((s.entry t).related b).filter (keepRelate threshold) } := by
    intro i
    cases ht : (s.sortIndexInt threshold ord).mTermInfo[i]? with
    | none =>
      have hlen : s.mTermInfo.length ≤ i := hts.length_eq ▸ List.getElem?_eq_none_iff.mp ht
      rw [List.getElem?_eq_none_iff.mpr hlen]
      rfl
    | some t' =>
      obtain ⟨t, ht₀, hsw⟩ := forall₂_getElem? hts ht
      rw [ht₀, Option.map_some, Option.map_some, Option.some.injEq]
      simp only [State.entry, hsw.data, Entry.mk.injEq, true_and]
      funext hash
      rw [hsw.lookup hash]
      cases t.coocTerm.lookup hash with
      | none => rfl
      | some slot =>
        simp only [Option.filter_some, Option.map_some]
        have hk : (!(s.relation slot < threshold.toUInt32)) = keepRelate threshold (s.relate slot) :=
          rfl
        rw [hk]
        split <;> rfl
  funext hash
  have hidx : (s.sortIndexInt threshold ord).mTermIndex = s.mTermIndex := rfl
  rw [Index.prune, State.view, hidx, State.view]
  cases hl : s.mTermIndex.lookup hash with
  | none => rfl
  | some i =>
    rw [Option.bind_some, hentry, Option.bind_some, Option.map_map]
    rfl

theorem view_outOfMemory (ord : Order) :
    (s.outOfMemory ord).view = s.view.prune (keepRelate 1) := view_sortIndexInt (s := s) 1 ord

theorem view_slotSource (h : Inv s) (alloc : Alloc) (ord : Order) :
    (slotSource s alloc ord).view = if s.mNoMemory then s.view else s.view.prune (keepRelate 1) := by
  unfold slotSource
  split
  · rfl
  · split
    · rw [view_outOfMemory, view_pushRelate h]
    · exact view_outOfMemory ord

-- ---------------------------------------------------------------------------
-- A line
-- ---------------------------------------------------------------------------

/-- The prune after a failed allocation drops no related term without its
mirror image. -/
def PairEvent.PrunesPairs (e : PairEvent) : Prop :=
  e.state.mNoMemory = false → ∀ a b r, e.state.view.rel a b = some r → keepRelate 1 r = false →
    ∃ r', e.state.view.rel b a = some r' ∧ keepRelate 1 r' = false

/-- When a new pair has to take a slot from the free list, the slot holds a
fresh record, or there is none and the pair is the first of its line. -/
structure PairEvent.Paired (e : PairEvent) : Prop where
  reuse : e.ReusesFresh
  prune : e.New → e.Full → e.PrunesPairs
  first : e.New → e.Full → (slotSource e.state e.alloc e.ord).mRelateIndexSlot = [] →
    e.pos = (0, 1)

theorem positions_first {n : Nat} {pre rest : List (Nat × Nat)}
    (h : positions n = pre ++ (0, 1) :: rest) : pre = [] := by
  have hn : 2 ≤ n := by
    have hm : (0, 1) ∈ positions n := by simp [h]
    obtain ⟨-, h1, -⟩ := mem_positions.mp hm
    omega
  obtain ⟨m, rfl⟩ : ∃ m, n = m + 2 := ⟨n - 2, by omega⟩
  have hhead : (positions (m + 2)).head? = some (0, 1) := by
    simp [positions, List.range_succ_eq_map]
  cases pre with
  | nil => rfl
  | cons p pre =>
    have hd := nodup_positions (m + 2)
    rw [h] at hhead hd
    obtain rfl : p = (0, 1) := by simpa using hhead
    simp at hd

theorem keepRelate_one {r : RelateTermInfo} :
    keepRelate 1 r = false ↔ r.numHistory + r.numNow = 0 := by
  have hone : (1 : Int32).toUInt32 = 1 := by decide
  simp [keepRelate, hone, UInt32.lt_iff_toNat_lt, ← UInt32.toNat_inj]

theorem keepRelate_next : keepRelate 1 (.next none) = true ∧
    ∀ r, keepRelate 1 r = false → keepRelate 1 (.next (some r)) = true := by
  refine ⟨by decide, fun r hr => ?_⟩
  rw [← Bool.not_eq_false, keepRelate_one]
  intro hnext
  have hone : r.numHistory + (r.numNow + 1) = 1 := by
    rw [← UInt32.add_assoc, keepRelate_one.mp hr]
    rfl
  exact absurd (hnext.symm.trans hone) (by decide)

theorem halfway_slotSource (h : Inv s) {done : UInt32 → UInt32 → Prop}
    (hhalf : Halfway .next s.view done) {e : PairEvent} (he : e.state = s)
    (hp : e.PrunesPairs) : Halfway .next (slotSource s e.alloc e.ord).view done := by
  subst he
  rw [view_slotSource h]
  split
  · exact hhalf
  · rename_i hm
    have hm : e.state.mNoMemory = false := by simpa using hm
    exact hhalf.prune (hp hm) keepRelate_next.1 keepRelate_next.2

theorem view_ne_none (h : Inv s) {hash : UInt32} (hm : hash ∈ s.mTermIndex) :
    s.view hash ≠ none := fun hn => (view_eq_none h).mp hn hm

/-- The rest of a line, with the pairs of `pre` bumped already. -/
theorem symmetric_cooc (h : Inv s) {hashValues : List UInt32} (hrec : Recorded s hashValues)
    {alloc : Nat × Nat → Alloc} {ord : Order} (pre : List (Nat × Nat)) {ps : List (Nat × Nat)}
    (hps : positions hashValues.length = pre ++ ps)
    (hhalf : Halfway .next s.view fun a b =>
      (a, b) ∈ pre.map fun p => (hashValues.getD p.1 0, hashValues.getD p.2 0))
    (hok : ∀ e ∈ coocSteps hashValues alloc ord s ps, e.Paired) :
    (outcome (ps.foldlM (fun s p =>
      s.addPair (hashValues.getD p.1 0) (hashValues.getD p.2 0) (alloc p) ord) s)).view.Symmetric := by
  induction ps generalizing s pre with
  | nil =>
    rw [List.append_nil] at hps
    refine hhalf.symmetric fun a b hab => ?_
    rw [← hps] at hab ⊢
    obtain ⟨ha, hb, hne⟩ := (mem_hashPairs hrec.nodup).mp hab
    exact (mem_hashPairs hrec.nodup).mpr ⟨hb, ha, Ne.symm hne⟩
  | cons p ps ih =>
    obtain ⟨hi, hj, hij⟩ := hrec.pair (p := p) (by simp [hps])
    have hpaired : PairEvent.Paired ⟨s, p, hashValues.getD p.1 0, hashValues.getD p.2 0, alloc p, ord⟩ :=
      hok _ (by simp [coocSteps])
    have hnot : (hashValues.getD p.1 0, hashValues.getD p.2 0) ∉
        pre.map fun p => (hashValues.getD p.1 0, hashValues.getD p.2 0) := by
      have hd := nodup_hashPairs hrec.nodup
      rw [hashPairs, hps, List.map_append, List.map_cons] at hd
      exact fun hm => (List.nodup_append.mp hd).2.2 _ hm _ (by simp) rfl
    have hstep := h.addPair_step (hashValues.getD p.1 0) (hashValues.getD p.2 0) (alloc p) ord
    rw [List.foldlM_cons]
    cases hr : s.addPair (hashValues.getD p.1 0) (hashValues.getD p.2 0) (alloc p) ord with
    | error s' =>
      rw [hr] at hstep
      cases hstep with
      | fail new full free =>
        -- nothing was bumped before the first pair
        obtain rfl : pre = [] := by
          obtain rfl : p = (0, 1) := hpaired.first new full free
          exact positions_first hps
        have hsym : s.view.Symmetric := hhalf.symmetric (by simp)
        show (slotSource s (alloc p) ord).view.Symmetric
        rw [view_slotSource h]
        split
        · exact hsym
        · exact hsym.prune _
    | ok s' =>
      have hinv := (hstep.inv h hi hj hij).1
      have hsame := hstep.sameTerms
      rw [hr] at hstep hinv hsame
      have hbump : ∃ v : View, Halfway .next v (fun a b => (a, b) ∈ pre.map fun p =>
            (hashValues.getD p.1 0, hashValues.getD p.2 0)) ∧ v (hashValues.getD p.1 0) ≠ none ∧
          s'.view = v.bump .next (hashValues.getD p.1 0) (hashValues.getD p.2 0) := by
        cases hstep with
        | bump slot found => exact ⟨s.view, hhalf, view_ne_none h hi, view_bump h hi found⟩
        | append new memory => exact ⟨s.view, hhalf, view_ne_none h hi, view_append h hi new⟩
        | reuse slot new full free =>
          have hsrc := h.slotSource (alloc p) ord
          have hidx : (slotSource s (alloc p) ord).mTermIndex = s.mTermIndex :=
            slotSource_termIndex (alloc p) ord
          exact ⟨(slotSource s (alloc p) ord).view, halfway_slotSource h hhalf rfl
            (hpaired.prune new full), view_ne_none hsrc (hidx ▸ hi),
            view_reuse h hi new (hpaired.reuse new full slot free)⟩
      obtain ⟨v, hv, hne, hs'⟩ := hbump
      have hnext := hv.bump hne hij hnot
      rw [← hs'] at hnext
      refine ih hinv (hrec.of_sameTerms hsame) (pre ++ [p]) (by simpa using hps) ?_ ?_
      · simpa using hnext
      · intro e he
        refine hok e ?_
        simp only [coocSteps, PairEvent.result, hr, List.mem_cons]
        exact .inr he

variable (hashlittle : List UInt8 → UInt32)

omit hashlittle in
theorem symmetric_record {v : View} (h : v.Symmetric) (new : TermData) (a : UInt32) :
    (v.record TermData.again new a).Symmetric := by
  have hrel : ∀ b c, (v.record TermData.again new a).rel b c = v.rel b c := by
    intro b c
    by_cases hb : b = a
    · subst hb
      cases hv : v b <;> simp [Index.rel, Index.record, hv]
    · simp [Index.rel, Index.record, hb]
  intro b c
  rw [hrel, hrel, h b c]

theorem symmetric_scanTerms (h : Inv s) (hs : s.view.Symmetric) (terms : List (List UInt8)) :
    (s.scanTerms hashlittle terms).1.view.Symmetric := by
  induction terms using List.reverseRecOn with
  | nil => exact hs
  | append_singleton terms term ih =>
    rw [scanTerms_concat, scanTerm]
    split
    · exact ih
    · rw [view_recordTerm hashlittle (h.scanTerms hashlittle terms).1]
      exact symmetric_record ih _ _

theorem view_indexTerms (terms : List (List UInt8)) (alloc : Nat × Nat → Alloc) (ord : Order) :
    (s.indexTerms hashlittle terms alloc ord).view =
      (outcome ((s.scanTerms hashlittle terms).1.addCooc (s.scanTerms hashlittle terms).2
        alloc ord)).view := rfl

theorem symmetric_parseLineTerms (h : Inv s) (hs : s.view.Symmetric) (line : Line)
    (alloc : Nat × Nat → Alloc) (ord : Order)
    (hok : ∀ e ∈ lineSteps hashlittle s line alloc ord, e.Paired) :
    (s.parseLineTerms hashlittle line alloc ord).view.Symmetric := by
  obtain ⟨hinv, hrec⟩ := h.scanTerms hashlittle line.terms
  have hsym := symmetric_scanTerms hashlittle h hs line.terms
  rw [parseLineTerms_eq, view_indexTerms, addCooc]
  exact symmetric_cooc hinv hrec [] (List.nil_append _).symm (hsym.halfway (by simp)) hok

def ParsesOrSorts : Cmd → Prop
  | .parseLineTerms .. => True
  | .sortIndexInt .. => True
  | _ => False

theorem symmetric_view_run (h : Inv s) (hs : s.view.Symmetric) {cmds : List Cmd}
    (hcmds : ∀ cmd ∈ cmds, ParsesOrSorts cmd)
    (hok : ∀ e ∈ runSteps hashlittle s cmds, e.Paired) :
    (run hashlittle s cmds).view.Symmetric := by
  induction cmds generalizing s with
  | nil => exact hs
  | cons cmd cmds ih =>
    have hrest : ∀ cmd ∈ cmds, ParsesOrSorts cmd := fun c hc => hcmds c (by simp [hc])
    have hcmd : ParsesOrSorts cmd := hcmds cmd (by simp)
    cases cmd with
    | parseLineTerms line alloc ord =>
      refine ih (h.parseLineTerms hashlittle line alloc ord)
        (symmetric_parseLineTerms hashlittle h hs line alloc ord fun e he => ?_) hrest
        fun e he => ?_
      · exact hok e (List.mem_append_left _ he)
      · exact hok e (List.mem_append_right _ he)
    | sortIndexInt threshold ord =>
      refine ih (h.exec hashlittle (.sortIndexInt threshold ord)) ?_ hrest hok
      show (s.sortIndexInt threshold ord).view.Symmetric
      rw [view_sortIndexInt]
      exact hs.prune _
    | sortIndexFloat threshold ord => exact hcmd.elim
    | filtIndex K pos alloc ord => exact hcmd.elim

omit hashlittle in
theorem symmetric_of_view (h : Inv s) (hs : s.view.Symmetric) : s.Symmetric := by
  intro hashA hA hashB hB
  obtain ⟨eA, heA, hrelA⟩ := view_find h hA hashB
  obtain ⟨eB, heB, hrelB⟩ := view_find h hB hashA
  have hab := hs hashA hashB
  rw [Index.rel, Index.rel, heA, heB, Option.bind_some, Option.bind_some, hrelA, hrelB] at hab
  exact hab

theorem runSteps_append (s : State) (cmds cmds' : List Cmd) :
    runSteps hashlittle s (cmds ++ cmds') =
      runSteps hashlittle s cmds ++ runSteps hashlittle (run hashlittle s cmds) cmds' := by
  induction cmds generalizing s with
  | nil => rfl
  | cons cmd cmds ih =>
    cases cmd with
    | parseLineTerms line alloc ord =>
      rw [List.cons_append, runSteps, ih, runSteps, List.append_assoc]
      rfl
    | sortIndexInt threshold ord => exact ih _
    | sortIndexFloat threshold ord => exact ih _
    | filtIndex K pos alloc ord => exact ih _

/-- After each call the index is symmetric, as long as new pairs that reuse a
slot find a fresh record in it and no line runs out of slots half-way. -/
theorem symmetric_run {cmds : List Cmd} (hcmds : ∀ cmd ∈ cmds, ParsesOrSorts cmd)
    (hok : ∀ e ∈ runSteps hashlittle State.empty cmds, e.Paired) :
    ∀ calls, calls <+: cmds → (run hashlittle State.empty calls).Symmetric := by
  rintro calls ⟨rest, rfl⟩
  have hempty : State.empty.view.Symmetric := fun a b => by
    simp [Index.rel, State.view, State.empty]
  refine symmetric_of_view (inv_empty.run hashlittle calls) ?_
  refine symmetric_view_run hashlittle inv_empty hempty
    (fun cmd hc => hcmds cmd (List.mem_append_left _ hc)) fun e he => hok e ?_
  rw [runSteps_append]
  exact List.mem_append_left _ he

end

theorem PairEvent.prunesPairs_of_kept {e : PairEvent}
    (hkept : ∀ slot ∈ e.state.usedSlots, keepRelate 1 (e.state.relate slot) = true) :
    e.PrunesPairs := by
  intro hmem a b r hrel hkeep
  obtain ⟨entry, hentry, hr⟩ := Option.bind_eq_some_iff.mp hrel
  obtain ⟨i, -, hi⟩ := Option.bind_eq_some_iff.mp hentry
  obtain ⟨t, ht, rfl⟩ := Option.map_eq_some_iff.mp hi
  obtain ⟨slot, hslot, rfl⟩ := Option.map_eq_some_iff.mp hr
  have hused : slot ∈ e.state.usedSlots :=
    mem_usedSlots.mpr ⟨t, List.mem_of_getElem? ht, b, hslot⟩
  rw [hkept slot hused] at hkeep
  cases hkeep

/-- The pairs of two terms are dropped while their records are fresh, and then memory
runs out for those of another line, which reuse their slots. -/
theorem symmetric_run_ab :
    let ord : Order := IterOrder.held _ _
    let lineAC : Line := ⟨[109, 9, 97, 9, 99], by decide, by decide⟩
    let cmds : List Cmd := [.parseLineTerms lineAB (fun _ => .ok) ord, .sortIndexInt 2 ord,
      .parseLineTerms lineAC (fun _ => .pushFails) ord]
    ∀ calls, calls <+: cmds → (run JenkinsHash.hashString State.empty calls).Symmetric := by
  intro ord lineAC cmds
  refine symmetric_run _ (by simp [cmds, ParsesOrSorts]) fun e he => ?_
  have hall : ∀ e ∈ runSteps JenkinsHash.hashString State.empty cmds, e.ReusesFresh ∧
      (∀ slot ∈ e.state.usedSlots, keepRelate 1 (e.state.relate slot) = true) ∧
      (e.New → e.Full → (slotSource e.state e.alloc e.ord).mRelateIndexSlot ≠ []) := by
    decide +kernel
  obtain ⟨hreuse, hkept, hfree⟩ := hall e he
  exact ⟨hreuse, fun _ _ => PairEvent.prunesPairs_of_kept hkept,
    fun hn hf hnil => absurd hnil (hfree hn hf)⟩

/-- b gets no slot for a after a got one for b: the line stays half recorded. -/
theorem half_recorded :
    let alloc : Nat × Nat → Alloc := fun p => if p = (1, 0) then .pushFails else .ok
    let s := run JenkinsHash.hashString State.empty
      [.parseLineTerms lineAB alloc (IterOrder.held _ _)]
    let a := JenkinsHash.hashString [97]
    let b := JenkinsHash.hashString [98]
    a ∈ s.mTermIndex ∧ b ∈ s.mTermIndex ∧
      (s.findCooc (s.termIndex a) b).map s.relate = some ⟨0, 1, 0⟩ ∧
      (s.findCooc (s.termIndex b) a).map s.relate = none ∧ ¬ s.Symmetric := by
  intro alloc s a b
  have ha : a ∈ s.mTermIndex := by decide +kernel
  have hb : b ∈ s.mTermIndex := by decide +kernel
  have hab : (s.findCooc (s.termIndex a) b).map s.relate = some ⟨0, 1, 0⟩ := by decide +kernel
  have hba : (s.findCooc (s.termIndex b) a).map s.relate = none := by decide +kernel
  exact ⟨ha, hb, hab, hba, fun hs => by simpa [hab, hba] using hs a ha b hb⟩

end TextMining.WordNet
