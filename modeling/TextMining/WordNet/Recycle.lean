import TextMining.WordNet.Counting

/-!
# Recycled relation slots

`AddCooc` builds a fresh record for a new pair, but writes it only when it
appends a slot. A slot from the free list keeps the record of the pair that
had it before. `recycled_fresh_iff` says exactly which runs do not notice.
-/

namespace TextMining.WordNet

open State Cooc

/-- The loop body of `AddCooc` run for a pair, with the state before it and
the positions of its terms in the line. -/
structure PairEvent where
  state : State
  pos : Nat × Nat
  hashI : UInt32
  hashJ : UInt32
  alloc : Alloc
  ord : Order

namespace PairEvent

def result (e : PairEvent) : Except State State := e.state.addPair e.hashI e.hashJ e.alloc e.ord

def New (e : PairEvent) : Prop := e.state.findCooc (e.state.termIndex e.hashI) e.hashJ = none

instance (e : PairEvent) : Decidable e.New := inferInstanceAs (Decidable (_ = _))

def Full (e : PairEvent) : Prop := e.state.mNoMemory = true ∨ e.alloc ≠ .ok

instance (e : PairEvent) : Decidable e.Full := inferInstanceAs (Decidable (_ ∨ _))

def record (e : PairEvent) : Option RelateTermInfo :=
  match e.result with
  | .error _ => none
  | .ok s => (s.findCooc (s.termIndex e.hashI) e.hashJ).map s.relate

def StartsFresh (e : PairEvent) : Prop := e.New → ∀ r ∈ e.record, r = .fresh

/-- The slot that a new pair gets from the free list holds a fresh record
already. -/
def ReusesFresh (e : PairEvent) : Prop :=
  e.New → e.Full → ∀ slot ∈ (slotSource e.state e.alloc e.ord).mRelateIndexSlot.getLast?,
    (slotSource e.state e.alloc e.ord).relate slot = .fresh

instance (e : PairEvent) : Decidable e.ReusesFresh :=
  inferInstanceAs <| Decidable <| e.New → e.Full →
    ∀ slot ∈ (slotSource e.state e.alloc e.ord).mRelateIndexSlot.getLast?,
      (slotSource e.state e.alloc e.ord).relate slot = .fresh

structure Ok (e : PairEvent) : Prop where
  inv : Inv e.state
  memI : e.hashI ∈ e.state.mTermIndex
  memJ : e.hashJ ∈ e.state.mTermIndex
  ne : e.hashI ≠ e.hashJ

end PairEvent

-- ---------------------------------------------------------------------------
-- The steps of a run
-- ---------------------------------------------------------------------------

def coocSteps (hashValues : List UInt32) (alloc : Nat × Nat → Alloc) (ord : Order) :
    State → List (Nat × Nat) → List PairEvent
  | _, [] => []
  | s, p :: ps =>
    let e : PairEvent := ⟨s, p, hashValues.getD p.1 0, hashValues.getD p.2 0, alloc p, ord⟩
    e :: match e.result with
      | .error _ => []
      | .ok s => coocSteps hashValues alloc ord s ps

section
variable (hashlittle : List UInt8 → UInt32)

def lineSteps (s : State) (line : Line) (alloc : Nat × Nat → Alloc) (ord : Order) :
    List PairEvent :=
  let scanned := s.scanTerms hashlittle line.terms
  coocSteps scanned.2 alloc ord scanned.1 (positions scanned.2.length)

def runSteps (s : State) : List Cmd → List PairEvent
  | [] => []
  | .parseLineTerms line alloc ord :: cmds =>
    lineSteps hashlittle s line alloc ord ++
      runSteps (s.parseLineTerms hashlittle line alloc ord) cmds
  | cmd :: cmds => runSteps (cmd.exec hashlittle s) cmds

variable {s : State}

omit hashlittle in
theorem coocSteps_ok (h : Inv s) {hashValues : List UInt32} (hrec : Recorded s hashValues)
    {alloc : Nat × Nat → Alloc} {ord : Order} {ps : List (Nat × Nat)}
    (hps : ∀ p ∈ ps, p ∈ positions hashValues.length) :
    ∀ e ∈ coocSteps hashValues alloc ord s ps, e.Ok := by
  induction ps generalizing s with
  | nil => simp [coocSteps]
  | cons p ps ih =>
    obtain ⟨hi, hj, hij⟩ := hrec.pair (hps p (by simp))
    intro e he
    rcases List.mem_cons.mp he with rfl | he
    · exact ⟨h, hi, hj, hij⟩
    · have hstep := h.addPair_step (hashValues.getD p.1 0) (hashValues.getD p.2 0) (alloc p) ord
      have hinv := (hstep.inv h hi hj hij).1
      have hsame := hstep.sameTerms
      cases hr : s.addPair (hashValues.getD p.1 0) (hashValues.getD p.2 0) (alloc p) ord with
      | error s' => simp only [PairEvent.result, hr, List.not_mem_nil] at he
      | ok s' =>
        simp only [PairEvent.result, hr] at he
        rw [hr] at hinv hsame
        exact ih hinv (hrec.of_sameTerms hsame) (fun q hq => hps q (by simp [hq])) e he

theorem runSteps_ok (h : Inv s) (cmds : List Cmd) : ∀ e ∈ runSteps hashlittle s cmds, e.Ok := by
  induction cmds generalizing s with
  | nil => simp [runSteps]
  | cons cmd cmds ih =>
    cases cmd with
    | parseLineTerms line alloc ord =>
      intro e he
      rcases List.mem_append.mp he with he | he
      · obtain ⟨hs, hrec⟩ := h.scanTerms hashlittle line.terms
        exact coocSteps_ok hs hrec (fun p hp => hp) e he
      · exact ih (h.parseLineTerms hashlittle line alloc ord) e he
    | sortIndexInt threshold ord => exact ih (h.exec hashlittle _)
    | sortIndexFloat threshold ord => exact ih (h.exec hashlittle _)
    | filtIndex K pos alloc ord => exact ih (h.exec hashlittle _)

-- ---------------------------------------------------------------------------
-- Fresh records
-- ---------------------------------------------------------------------------

omit hashlittle in
theorem record_recordPair (h : Inv s) {hashI : UInt32} (hi : hashI ∈ s.mTermIndex) (hashJ : UInt32)
    (slot : Nat) :
    let s' := (s.setCooc (s.termIndex hashI) hashJ slot).countRelate (s.termIndex hashI)
    (s'.findCooc (s'.termIndex hashI) hashJ).map s'.relate = some (s.relate slot) := by
  obtain ⟨-, t, ht⟩ := h.term hi
  intro s'
  have hs' : s'.findCooc (s'.termIndex hashI) hashJ = some slot := by
    have hget : s'.mTermInfo[s.termIndex hashI]? = some (t.addCooc hashJ slot) := by
      simp [s', setCooc_countRelate, ht]
    show s'.findCooc (s.termIndex hashI) hashJ = some slot
    rw [findCooc, hget, Option.bind_some]
    exact AList.lookup_insert _
  rw [hs']
  rfl

omit hashlittle in
theorem PairEvent.Ok.startsFresh_iff {e : PairEvent} (h : e.Ok) :
    e.StartsFresh ↔ e.ReusesFresh := by
  have hstep := h.inv.addPair_step e.hashI e.hashJ e.alloc e.ord
  unfold StartsFresh ReusesFresh
  refine forall_congr' fun hnew => ?_
  generalize hr : e.state.addPair e.hashI e.hashJ e.alloc e.ord = r at hstep
  cases hstep with
  | bump slot found =>
    rw [PairEvent.New, found] at hnew
    cases hnew
  | append new memory =>
    have hrec : e.record = some .fresh := by
      simp only [PairEvent.record, PairEvent.result, hr]
      refine (record_recordPair h.inv.pushRelate h.memI e.hashJ e.state.mRelateInfo.length).trans ?_
      simp [State.relate, State.pushRelate]
    have hfull : ¬ e.Full := fun hf => by
      rcases hf with hf | hf
      · simp [memory.1] at hf
      · exact hf memory.2
    simp [hrec, hfull]
  | reuse slot new full free =>
    have hidx := slotSource_termIndex (s := e.state) e.alloc e.ord
    have hrec : e.record = some ((slotSource e.state e.alloc e.ord).relate slot) := by
      simp only [PairEvent.record, PairEvent.result, hr]
      rw [← termIndex_slotSource e.alloc e.ord e.hashI]
      exact record_recordPair (h.inv.slotSource e.alloc e.ord).popSlot (hidx ▸ h.memI) e.hashJ slot
    have hfull : e.Full := full
    simp [hrec, hfull, free]
  | fail new full free =>
    have hrec : e.record = none := by simp only [PairEvent.record, PairEvent.result, hr]
    simp [hrec, free]

/-- New pairs all start with a fresh record exactly when every slot they get
from the free list holds one already. -/
theorem recycled_fresh_iff (cmds : List Cmd) :
    (∀ e ∈ runSteps hashlittle State.empty cmds, e.StartsFresh) ↔
      ∀ e ∈ runSteps hashlittle State.empty cmds, e.ReusesFresh :=
  forall₂_congr fun e he => (runSteps_ok hashlittle inv_empty cmds e he).startsFresh_iff

end

/-- a and b occur together twice and are pruned. Memory runs out when c occurs
with a for the first time, and that pair starts with a count of 2. -/
theorem recycled_keeps_count :
    let hashlittle := JenkinsHash.hashString
    let ord : Order := IterOrder.held _ _
    let lineAC : Line := ⟨[109, 9, 97, 9, 99], by decide, by decide⟩
    let cmds : List Cmd := [.parseLineTerms lineAB (fun _ => .ok) ord,
      .parseLineTerms lineAB (fun _ => .ok) ord, .sortIndexInt 3 ord,
      .parseLineTerms lineAC (fun _ => .pushFails) ord]
    ∃ e ∈ runSteps hashlittle State.empty cmds, e.New ∧ e.record = some ⟨0, 2, 0⟩ := by
  decide +kernel

end TextMining.WordNet
