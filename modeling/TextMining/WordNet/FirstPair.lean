import TextMining.WordNet.TermCounts

/-!
# The first pair

Whether an index has a relation at all is settled by its first pair. If that one
gets a slot, some pair always has one, for what `SortIndex` drops goes to the free
list and is taken from there at once. If not, `m_no_memory` keeps the later pairs
from asking for more than the free list has, which is nothing.
-/

namespace TextMining.WordNet

open State

/-- A line with two different terms, as truncated. -/
def Line.Relates (line : Line) : Prop := ∃ a ∈ line.terms, ∃ b ∈ line.terms, a ≠ b

instance (line : Line) : Decidable line.Relates :=
  inferInstanceAs (Decidable (∃ a ∈ line.terms, ∃ b ∈ line.terms, a ≠ b))

/-- The first line with two different terms gets memory for its first pair. -/
def FirstPairFits (runs : List LineRun) : Prop :=
  ∃ r, runs.find? (fun r => r.line.Relates) = some r ∧ r.alloc (0, 1) = .ok

def State.slots (s : State) : List Nat := s.usedSlots ++ s.mRelateIndexSlot

section
variable {s : State}

-- ---------------------------------------------------------------------------
-- Pairs
-- ---------------------------------------------------------------------------

theorem slots_slotSource (alloc : Alloc) (ord : Order) :
    (slotSource s alloc ord).slots.Perm s.slots := by
  unfold slotSource
  split
  · exact .refl _
  · split
    · exact (sweepTerms_spec ord _ _ 0 s.mTermInfo s.mRelateIndexSlot).2
    · exact (sweepTerms_spec ord _ _ 0 s.mTermInfo s.mRelateIndexSlot).2

theorem slotSource_memory (alloc : Alloc) (ord : Order) :
    (slotSource s alloc ord).mNoMemory = true := by
  unfold slotSource
  split
  · assumption
  · split <;> rfl

theorem usedSlots_recordPair {i : Nat} {t : TermInfo} (ht : s.mTermInfo[i]? = some t)
    (hash : UInt32) (slot : Nat) : ((s.setCooc i hash slot).countRelate i).usedSlots ≠ [] := by
  have hget : ((s.setCooc i hash slot).countRelate i).mTermInfo[i]? =
      some (t.addCooc hash slot) := by
    rw [setCooc_countRelate, List.getElem?_modify_eq, ht]
    rfl
  have hm : slot ∈ ((s.setCooc i hash slot).countRelate i).usedSlots :=
    mem_usedSlots.mpr ⟨_, List.mem_of_getElem? hget, hash, AList.lookup_insert _⟩
  exact List.ne_nil_of_mem hm

variable {hashI hashJ : UInt32} {alloc : Alloc} {ord : Order} {r : Except State State}

theorem PairStep.used (h : Inv s) (hi : hashI ∈ s.mTermIndex)
    (hr : PairStep s hashI hashJ alloc ord r) (hs : s.usedSlots ≠ []) :
    (outcome r).usedSlots ≠ [] := by
  cases hr with
  | bump => exact hs
  | append =>
    obtain ⟨-, t, ht⟩ := h.term hi
    exact usedSlots_recordPair (s := s.pushRelate) ht _ _
  | reuse =>
    obtain ⟨-, t, ht⟩ := (h.slotSource alloc ord).term ((slotSource_termIndex alloc ord) ▸ hi)
    rw [termIndex_slotSource] at ht
    exact usedSlots_recordPair (s := popSlot (slotSource s alloc ord)) ht _ _
  | fail _ _ free =>
    -- nothing was dropped, or the free list had it
    intro hnil
    have hp := slots_slotSource (s := s) alloc ord
    rw [outcome] at hnil
    rw [slots, hnil, free, List.nil_append] at hp
    exact hs (List.append_eq_nil_iff.mp hp.nil_eq.symm).1

theorem findCooc_nil (hs : s.slots = []) (i : Nat) (hash : UInt32) : s.findCooc i hash = none := by
  cases hf : s.findCooc i hash with
  | none => rfl
  | some slot =>
    obtain ⟨t, ht, hl⟩ := Option.bind_eq_some_iff.mp hf
    have hm : slot ∈ s.usedSlots := mem_usedSlots.mpr ⟨t, List.mem_of_getElem? ht, hash, hl⟩
    rw [(List.append_eq_nil_iff.mp hs).1] at hm
    cases hm

theorem PairStep.slotless (hr : PairStep s hashI hashJ alloc ord r) (hs : s.slots = [])
    (hfull : s.mNoMemory = true ∨ alloc ≠ .ok) :
    ∃ s', r = .error s' ∧ s'.slots = [] ∧ s'.mNoMemory = true := by
  have hsource : (slotSource s alloc ord).slots = [] :=
    List.perm_nil.mp (hs ▸ slots_slotSource alloc ord)
  cases hr with
  | bump slot found => cases found.symm.trans (findCooc_nil hs _ _)
  | append _ memory => exact absurd memory.2 (hfull.resolve_left (by simp [memory.1]))
  | reuse slot _ _ free =>
    rw [(List.append_eq_nil_iff.mp hsource).2] at free
    cases free
  | fail => exact ⟨_, rfl, hsource, slotSource_memory alloc ord⟩

theorem PairStep.first (h : Inv s) (hi : hashI ∈ s.mTermIndex)
    (hr : PairStep s hashI hashJ alloc ord r) (hs : s.slots = []) (hm : s.mNoMemory = false)
    (halloc : alloc = .ok) : ∃ s', r = .ok s' ∧ s'.usedSlots ≠ [] := by
  have hfull : ¬ (s.mNoMemory = true ∨ alloc ≠ .ok) := by simp [hm, halloc]
  cases hr with
  | bump slot found => cases found.symm.trans (findCooc_nil hs _ _)
  | append =>
    obtain ⟨-, t, ht⟩ := h.term hi
    exact ⟨_, rfl, usedSlots_recordPair (s := s.pushRelate) ht _ _⟩
  | reuse _ _ full => exact absurd full hfull
  | fail _ full => exact absurd full hfull

-- ---------------------------------------------------------------------------
-- Lines
-- ---------------------------------------------------------------------------

variable (hashlittle : List UInt8 → UInt32)

theorem slots_scanTerms (terms : List (List UInt8)) :
    (s.scanTerms hashlittle terms).1.usedSlots = s.usedSlots ∧
      (s.scanTerms hashlittle terms).1.mRelateIndexSlot = s.mRelateIndexSlot := by
  induction terms using List.reverseRecOn with
  | nil => exact ⟨rfl, rfl⟩
  | append_singleton terms term ih =>
    rw [scanTerms_concat, scanTerm]
    split
    · exact ih
    · rw [← ih.1, ← ih.2]
      cases hl : (s.scanTerms hashlittle terms).1.mTermIndex.lookup (hashlittle term) with
      | none =>
        rw [recordTerm_of_none hashlittle hl]
        exact ⟨by simp [usedSlots], rfl⟩
      | some i =>
        rw [recordTerm_of_some hashlittle hl]
        exact ⟨usedSlots_modifyDf i (· + 1), rfl⟩

theorem Inv.parseLineTerms_keeps (h : Inv s) (line : Line) (alloc : Nat × Nat → Alloc) (ord : Order)
    {Q : State → Prop} (hs : Q (s.scanTerms hashlittle line.terms).1)
    (hpair : ∀ s' hashI hashJ alloc, Inv s' → hashI ∈ s'.mTermIndex → Q s' →
      Q (outcome (s'.addPair hashI hashJ alloc ord)))
    (htotal : ∀ (s' : State) total, Q s' → Q { s' with total }) :
    Q (s.parseLineTerms hashlittle line alloc ord) := by
  obtain ⟨hinv, hrec⟩ := h.scanTerms hashlittle line.terms
  rw [parseLineTerms_eq, State.indexTerms]
  exact htotal _ _ (hinv.addCooc_keeps hrec hs fun s' p hp hs' hidx hq =>
    hpair s' _ _ (alloc p) hs' (hidx ▸ (hrec.pair hp).1) hq).2.2

theorem Inv.used_parseLineTerms (h : Inv s) (hs : s.usedSlots ≠ []) (line : Line)
    (alloc : Nat × Nat → Alloc) (ord : Order) :
    (s.parseLineTerms hashlittle line alloc ord).usedSlots ≠ [] := by
  refine h.parseLineTerms_keeps hashlittle line alloc ord (Q := fun s' => s'.usedSlots ≠ []) ?_
    (fun s' hashI hashJ alloc hs' hi hq => (hs'.addPair_step hashI hashJ alloc ord).used hs' hi hq)
    fun _ _ hq => hq
  rw [(slots_scanTerms hashlittle line.terms).1]
  exact hs

theorem scanTerms_slots (terms : List (List UInt8)) :
    (s.scanTerms hashlittle terms).1.slots = s.slots := by
  rw [State.slots, (slots_scanTerms hashlittle terms).1, (slots_scanTerms hashlittle terms).2]
  rfl

theorem Inv.slotless_parseLineTerms (h : Inv s) (hs : s.slots = []) (hm : s.mNoMemory = true)
    (line : Line) (alloc : Nat × Nat → Alloc) (ord : Order) :
    (s.parseLineTerms hashlittle line alloc ord).slots = [] ∧
      (s.parseLineTerms hashlittle line alloc ord).mNoMemory = true := by
  refine h.parseLineTerms_keeps hashlittle line alloc ord
    (Q := fun s' => s'.slots = [] ∧ s'.mNoMemory = true) ⟨?_, ?_⟩
    (fun s' hashI hashJ alloc hs' _ hq => ?_) fun _ _ hq => hq
  · rw [scanTerms_slots, hs]
  · rw [scanTerms_memory, hm]
  · obtain ⟨s'', hr, hslots⟩ := (hs'.addPair_step hashI hashJ alloc ord).slotless hq.1 (.inl hq.2)
    rw [hr]
    exact hslots

theorem positions_first_two (n : Nat) : ∃ rest, positions (n + 2) = (0, 1) :: rest := by
  rw [positions, List.range_succ_eq_map, List.range_succ_eq_map]
  exact ⟨_, rfl⟩

theorem Inv.scanTerms_two (h : Inv s) {line : Line}
    (hinj : Set.InjOn hashlittle {t | t ∈ line.terms}) :
    line.Relates ↔ ∃ a b rest, (s.scanTerms hashlittle line.terms).2 = a :: b :: rest := by
  have hd := (h.scanTerms hashlittle line.terms).2.nodup
  have hmem : ∀ hash, hash ∈ (s.scanTerms hashlittle line.terms).2 ↔
      hash ∈ line.terms.map hashlittle := fun _ => mem_scanTerms hashlittle
  generalize (s.scanTerms hashlittle line.terms).2 = hashes at hd hmem
  constructor
  · rintro ⟨a, ha, b, hb, hne⟩
    have hha := (hmem _).mpr (List.mem_map_of_mem ha)
    have hhb := (hmem _).mpr (List.mem_map_of_mem hb)
    rcases hashes with _ | ⟨x, _ | ⟨y, rest⟩⟩
    · cases hha
    · rw [List.mem_singleton] at hha hhb
      exact absurd (hinj ha hb (hha.trans hhb.symm)) hne
    · exact ⟨x, y, rest, rfl⟩
  · rintro ⟨x, y, rest, rfl⟩
    obtain ⟨a, ha, hax⟩ := List.mem_map.mp ((hmem x).mp (by simp))
    obtain ⟨b, hb, hby⟩ := List.mem_map.mp ((hmem y).mp (by simp))
    refine ⟨a, ha, b, hb, fun he => (List.nodup_cons.mp hd).1 ?_⟩
    rw [← hax, he, hby]
    exact List.mem_cons_self

theorem addCooc_two (a b : UInt32) (hashes : List UInt32) (alloc : Nat × Nat → Alloc) (ord : Order) :
    ∃ rest, (0, 1) :: rest = positions (hashes.length + 2) ∧
      s.addCooc (a :: b :: hashes) alloc ord = (do
        rest.foldlM (fun s p => s.addPair ((a :: b :: hashes).getD p.1 0)
          ((a :: b :: hashes).getD p.2 0) (alloc p) ord) (← s.addPair a b (alloc (0, 1)) ord)) := by
  obtain ⟨rest, hrest⟩ := positions_first_two hashes.length
  refine ⟨rest, hrest.symm, ?_⟩
  rw [addCooc, show (a :: b :: hashes).length = hashes.length + 2 from rfl, hrest, List.foldlM_cons]
  rfl

theorem Inv.first_parseLineTerms (h : Inv s) (hs : s.slots = []) (hm : s.mNoMemory = false)
    {line : Line} (hinj : Set.InjOn hashlittle {t | t ∈ line.terms}) (alloc : Nat × Nat → Alloc)
    (ord : Order) :
    let s' := s.parseLineTerms hashlittle line alloc ord
    (¬ line.Relates → s'.slots = [] ∧ s'.mNoMemory = false) ∧
      (line.Relates → alloc (0, 1) = .ok → s'.usedSlots ≠ []) ∧
      (line.Relates → alloc (0, 1) ≠ .ok → s'.slots = [] ∧ s'.mNoMemory = true) := by
  obtain ⟨hinv, hrec⟩ := h.scanTerms hashlittle line.terms
  have hslots := (scanTerms_slots (s := s) hashlittle line.terms).trans hs
  have hmem := (scanTerms_memory (s := s) hashlittle line.terms).trans hm
  have htwo := h.scanTerms_two hashlittle hinj
  simp only [parseLineTerms_eq, State.indexTerms]
  generalize s.scanTerms hashlittle line.terms = scanned at *
  obtain ⟨s₁, hashes⟩ := scanned
  rcases hashes with _ | ⟨a, _ | ⟨b, hashes⟩⟩
  · exact ⟨fun _ => ⟨hslots, hmem⟩, by simp [htwo], by simp [htwo]⟩
  · exact ⟨fun _ => ⟨hslots, hmem⟩, by simp [htwo], by simp [htwo]⟩
  · obtain ⟨rest, hrest, hcooc⟩ := addCooc_two (s := s₁) a b hashes alloc ord
    have hpos : ∀ p ∈ (0, 1) :: rest, p ∈ positions (a :: b :: hashes).length :=
      fun p hp => by rwa [hrest] at hp
    obtain ⟨hi, hj, hij⟩ := hrec.pair (hpos _ List.mem_cons_self)
    have hstep := hinv.addPair_step a b (alloc (0, 1)) ord
    refine ⟨fun hnot => absurd (htwo.mpr ⟨a, b, hashes, rfl⟩) hnot, fun _ halloc => ?_,
      fun _ halloc => ?_⟩
    · obtain ⟨s₂, hs₂, hused⟩ := hstep.first hinv hi hslots hmem halloc
      have hinv₂ := hstep.inv hinv hi hj hij
      rw [hs₂] at hinv₂
      rw [hcooc, hs₂]
      exact (hinv₂.1.pairs_keep ⟨hrec.nodup, fun hash hh => hinv₂.2 ▸ hrec.mem hash hh⟩
        (fun p hp => hpos p (List.mem_cons_of_mem _ hp)) (Q := fun s' => s'.usedSlots ≠ []) hused
        fun s' p hp hs' hidx hq => (hs'.addPair_step _ _ (alloc p) ord).used hs'
          (hidx ▸ hinv₂.2 ▸ (hrec.pair hp).1) hq).2.2
    · obtain ⟨s₂, hs₂, hslotless⟩ := hstep.slotless hslots (.inr halloc)
      rw [hcooc, hs₂]
      exact hslotless

-- ---------------------------------------------------------------------------
-- Runs
-- ---------------------------------------------------------------------------

theorem Inv.used_indexRuns (h : Inv s) (hs : s.usedSlots ≠ []) (runs : List LineRun) :
    (indexRuns hashlittle s runs).usedSlots ≠ [] := by
  induction runs generalizing s with
  | nil => exact hs
  | cons r runs ih =>
    exact ih (h.parseLineTerms hashlittle r.line r.alloc r.ord)
      (h.used_parseLineTerms hashlittle hs r.line r.alloc r.ord)

theorem Inv.slotless_indexRuns (h : Inv s) (hs : s.slots = []) (hm : s.mNoMemory = true)
    (runs : List LineRun) : (indexRuns hashlittle s runs).slots = [] := by
  induction runs generalizing s with
  | nil => exact hs
  | cons r runs ih =>
    obtain ⟨hs', hm'⟩ := h.slotless_parseLineTerms hashlittle hs hm r.line r.alloc r.ord
    exact ih (h.parseLineTerms hashlittle r.line r.alloc r.ord) hs' hm'

/-- An index has a relation if and only if its first pair got memory. -/
theorem Inv.used_indexRuns_iff (h : Inv s) (hs : s.slots = []) (hm : s.mNoMemory = false)
    {runs : List LineRun} (hinj : Set.InjOn hashlittle {t | Occurs (runs.map LineRun.line) t}) :
    (indexRuns hashlittle s runs).usedSlots ≠ [] ↔ FirstPairFits runs := by
  induction runs generalizing s with
  | nil =>
    have hfirst : ¬ FirstPairFits [] := by simp [FirstPairFits]
    exact iff_of_false (fun hused => hused (List.append_eq_nil_iff.mp hs).1) hfirst
  | cons r runs ih =>
    have hr := h.parseLineTerms hashlittle r.line r.alloc r.ord
    have hline : Set.InjOn hashlittle {t | t ∈ r.line.terms} := by
      refine hinj.mono fun t ht => ?_
      exact ⟨r.line, List.mem_cons_self, ht⟩
    have hrest : Set.InjOn hashlittle {t | Occurs (runs.map LineRun.line) t} := by
      refine hinj.mono ?_
      rintro t ⟨line, hl, ht⟩
      exact ⟨line, List.mem_cons_of_mem _ hl, ht⟩
    obtain ⟨hnone, hsome, hfail⟩ := h.first_parseLineTerms hashlittle hs hm hline r.alloc r.ord
    by_cases hrel : r.line.Relates
    · have hfirst : FirstPairFits (r :: runs) ↔ r.alloc (0, 1) = .ok := by
        simp [FirstPairFits, hrel]
      rw [hfirst]
      by_cases halloc : r.alloc (0, 1) = .ok
      · exact iff_of_true (hr.used_indexRuns hashlittle (hsome hrel halloc) runs) halloc
      · obtain ⟨hs', hm'⟩ := hfail hrel halloc
        have hnil := hr.slotless_indexRuns hashlittle hs' hm' runs
        exact iff_of_false (fun hused => hused (List.append_eq_nil_iff.mp hnil).1) halloc
    · obtain ⟨hs', hm'⟩ := hnone hrel
      have hfirst : FirstPairFits (r :: runs) ↔ FirstPairFits runs := by
        simp [FirstPairFits, hrel]
      rw [hfirst]
      exact ih hr hs' hm' hrest

end

end TextMining.WordNet
