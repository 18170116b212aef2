import TextMining.AhoCorasick.Match

/-!
# Building more than once

`build_automata` writes inherited ids into the nodes, where the next build
takes them for the nodes' own. A `Labelling` is what a sequence of inserts and
builds leaves at the words; `rebuild_eq_iff` says exactly when the last build
matches like a fresh automaton.
-/

namespace TextMining.AhoCorasick

open Suffix

inductive Op
  | insert (word : List UInt8) (id : Int)
  | build

def step (A : AhoCorasick) : Op → Option AhoCorasick
  | .insert word id => some (A.insert word id)
  | .build => A.buildAutomata

def run (A : AhoCorasick) (ops : List Op) : Option AhoCorasick := ops.foldlM step A

def inserts (ops : List Op) : Dict :=
  ops.filterMap fun
    | .insert word id => some (word, id)
    | .build => none

def lastEntries : Dict → Dict
  | [] => []
  | e :: dict => if e.1 ∈ dict.map Prod.fst then lastEntries dict else e :: lastEntries dict

-- ---------------------------------------------------------------------------
-- What the calls leave at the words
-- ---------------------------------------------------------------------------

structure Labelling where
  words : List (List UInt8)
  label : List UInt8 → Option Int

def Labelling.Has (L : Labelling) (w : List UInt8) : Prop := ∃ v ∈ L.words, w <+: v

instance (L : Labelling) : DecidablePred L.Has := fun _ => inferInstanceAs (Decidable (∃ _ ∈ _, _))

def Labelling.Labelled (L : Labelling) (w : List UInt8) : Prop := w ≠ [] ∧ L.label w ≠ none

instance (L : Labelling) : DecidablePred L.Labelled := fun _ => inferInstanceAs (Decidable (_ ∧ _))

/-- A build copies to every word with a node the id of its longest suffix that
has one. -/
def Labelling.step (L : Labelling) : Op → Labelling
  | .insert word id => ⟨word :: L.words, Function.update L.label word (some id)⟩
  | .build => ⟨L.words, fun w => if L.Has w then L.label (longest L.Labelled w) else none⟩

def labelling (ops : List Op) : Labelling := ops.foldl Labelling.step ⟨[], fun _ => none⟩

/-- Every id that a build has left at a word is at the end the last id of
some word inside it. -/
def NoStaleId (ops : List Op) : Prop :=
  ∀ w i, (labelling ops).label w = some i → ∃ v, v <:+: w ∧ lastId (inserts ops) v = some i

structure Stores (A : AhoCorasick) (L : Labelling) : Prop where
  trie : A.Trie
  has : ∀ w, A.Has w ↔ w = [] ∨ L.Has w
  id : ∀ w, w ≠ [] → A.idAt w = (L.label w).getD None
  nil : L.label [] = none
  ne : ∀ w i, L.label w = some i → i ≠ None

theorem stores_clear : Stores clear ⟨[], fun _ => none⟩ where
  trie := trie_clear
  has w := by simp [has_clear, Labelling.Has]
  id w _ := by simp [idAt_clear]
  nil := rfl
  ne := by simp

theorem Stores.insert {A : AhoCorasick} {L : Labelling} (h : Stores A L) {word : List UInt8}
    {id : Int} (hw : word ≠ []) (hid : id ≠ None) :
    Stores (A.insert word id) (L.step (.insert word id)) := by
  obtain ⟨h1, h2, h3⟩ := insert_spec h.trie word id
  refine ⟨h1, fun w => ?_, fun w hne => ?_, ?_, ?_⟩
  · rw [h2, h.has]
    simp only [Labelling.Has, Labelling.step, List.mem_cons, exists_eq_or_imp]
    rw [or_assoc, or_comm (b := w <+: word)]
  · rw [h3, h.id w hne]
    by_cases he : w = word <;> simp [Labelling.step, Function.update, he]
  · simp [Labelling.step, Function.update, Ne.symm hw, h.nil]
  · intro w i hi
    by_cases he : w = word
    · subst he
      obtain rfl : id = i := by simpa [Labelling.step] using hi
      exact hid
    · exact h.ne w i (by simpa [Labelling.step, he] using hi)

theorem Stores.labelled {A : AhoCorasick} {L : Labelling} (h : Stores A L) (w : List UInt8) :
    A.Labelled w ↔ L.Labelled w := by
  refine and_congr_right fun hne => ?_
  rw [h.id w hne]
  cases hl : L.label w with
  | none => simp
  | some i => simp [h.ne w i hl]

theorem longest_congr {p q : List UInt8 → Prop} [DecidablePred p] [DecidablePred q]
    (h : ∀ w, p w ↔ q w) (w : List UInt8) : longest p w = longest q w := by
  induction w with
  | nil => rfl
  | cons a w ih => simp [longest, h, ih]

theorem Stores.inherit {A : AhoCorasick} {L : Labelling} (h : Stores A L) (w : List UInt8) :
    A.inherit w = (L.label (longest L.Labelled w)).getD None := by
  rw [AhoCorasick.inherit, longest_congr h.labelled]
  split
  · rename_i hnil
    rw [hnil, h.nil]; rfl
  · rename_i hne
    exact h.id _ hne

theorem Stores.build {A : AhoCorasick} {L : Labelling} (h : Stores A L) :
    ∃ B, A.buildAutomata = some B ∧ Stores B (L.step .build) := by
  obtain ⟨B, hB, hs, hfin⟩ := buildAutomata_spec h.trie
  have hhas : ∀ w, B.Has w ↔ A.Has w := hs.has
  refine ⟨B, hB, hs.trie h.trie, fun w => ?_, fun w hne => ?_, ?_, fun w i hi => ?_⟩
  · rw [hhas, h.has]
    rfl
  · simp only [Labelling.step]
    by_cases hw : A.Has w
    · obtain ⟨i, hi⟩ := has_iff.mp hw
      have hL : L.Has w := ((h.has w).mp hw).resolve_left hne
      rw [if_pos hL, ← h.inherit, ← (hfin w hne hw i hi).2]
      exact idAt_of_walk (by rw [hs.walk, hi])
    · have hL : ¬ L.Has w := fun hL => hw ((h.has w).mpr (.inr hL))
      rw [if_neg hL, idAt_of_not_has (mt (hhas w).mp hw)]
      rfl
  · simp [Labelling.step, h.nil]
  · simp only [Labelling.step] at hi
    split at hi
    · exact h.ne _ i hi
    · cases hi

def Op.Valid : Op → Prop
  | .insert word id => word ≠ [] ∧ id ≠ None
  | .build => True

theorem run_stores (ops : List Op) (hops : ∀ op ∈ ops, op.Valid) :
    ∃ A, clear.run ops = some A ∧ Stores A (labelling ops) := by
  induction ops using List.reverseRecOn with
  | nil => exact ⟨clear, rfl, stores_clear⟩
  | append_singleton ops op ih =>
    obtain ⟨A, hA, hst⟩ := ih fun op hop => hops op (by simp [hop])
    have hrun : clear.run (ops ++ [op]) = A.step op := by
      simp only [run, List.foldlM_append] at hA ⊢
      simp [hA]
    have hlab : labelling (ops ++ [op]) = (labelling ops).step op := by simp [labelling]
    rw [hrun, hlab]
    have hop := hops op (by simp)
    cases op with
    | insert word id => exact ⟨_, rfl, hst.insert hop.1 hop.2⟩
    | build => exact hst.build

-- ---------------------------------------------------------------------------
-- Against a fresh automaton
-- ---------------------------------------------------------------------------

theorem lastId_eq_none_iff {dict : Dict} {w : List UInt8} :
    lastId dict w = none ↔ w ∉ dict.map Prod.fst := by
  rw [lastId_eq_none, List.mem_map, not_exists]
  simp only [not_and]

theorem mem_lastEntries {dict : Dict} {w : List UInt8} {i : Int} :
    (w, i) ∈ lastEntries dict ↔ lastId dict w = some i := by
  induction dict with
  | nil => simp [lastEntries, lastId]
  | cons e dict ih =>
    rw [lastEntries, lastId]
    split
    · rename_i hmem
      rw [ih]
      cases hl : lastId dict w with
      | some j => simp
      | none =>
        have hne : e.1 ≠ w := by
          rintro rfl
          exact lastId_eq_none_iff.mp hl hmem
        simp [hne]
    · rename_i hmem
      rw [List.mem_cons, ih]
      have hlast := lastId_eq_none_iff.mpr hmem
      by_cases he : e.1 = w
      · subst he
        simp [hlast, Prod.ext_iff, eq_comm]
      · have : (w, i) ≠ e := fun h => he (by rw [← h])
        simp [he, this]

theorem nodup_lastEntries (dict : Dict) : ((lastEntries dict).map Prod.fst).Nodup := by
  induction dict with
  | nil => exact List.nodup_nil
  | cons e dict ih =>
    rw [lastEntries]
    split
    · exact ih
    · rename_i hmem
      rw [List.map_cons, List.nodup_cons]
      refine ⟨?_, ih⟩
      intro h
      obtain ⟨x, hx, he⟩ := List.mem_map.mp h
      have hlast : lastId dict e.1 = some x.2 := mem_lastEntries.mp (by rw [← he]; exact hx)
      rw [lastId_eq_none_iff.mpr hmem] at hlast
      cases hlast

theorem lastId_of_nodup {dict : Dict} (hnd : (dict.map Prod.fst).Nodup) {w : List UInt8} {i : Int} :
    lastId dict w = some i ↔ (w, i) ∈ dict := by
  refine ⟨lastId_mem, fun h => ?_⟩
  induction dict with
  | nil => cases h
  | cons e dict ih =>
    obtain ⟨hne, hnd⟩ := List.nodup_cons.mp hnd
    rw [lastId]
    rcases List.mem_cons.mp h with rfl | h
    · simp [lastId_eq_none_iff.mpr hne]
    · simp [ih hnd h]

theorem lastId_fresh {dict fresh : Dict} (h : fresh.Perm (lastEntries dict)) (w : List UInt8) :
    lastId fresh w = lastId dict w := by
  have hnd : (fresh.map Prod.fst).Nodup :=
    (h.map Prod.fst).nodup_iff.mpr (nodup_lastEntries dict)
  apply Option.ext
  intro i
  rw [lastId_of_nodup hnd, h.mem_iff, mem_lastEntries]

theorem label_of_lastId (ops : List Op) {w : List UInt8} {i : Int} (hw : w ≠ [])
    (h : lastId (inserts ops) w = some i) :
    (labelling ops).label w = some i ∧ (labelling ops).Has w := by
  induction ops using List.reverseRecOn generalizing i with
  | nil => simp [inserts, lastId] at h
  | append_singleton ops op ih =>
    have hlab : labelling (ops ++ [op]) = (labelling ops).step op := by simp [labelling]
    rw [hlab]
    cases op with
    | insert word id =>
      have hins : inserts (ops ++ [.insert word id]) = inserts ops ++ [(word, id)] := by
        simp [inserts]
      rw [hins, lastId_append] at h
      by_cases he : word = w
      · subst he
        obtain rfl : id = i := by simpa [lastId] using h
        exact ⟨by simp [Labelling.step], word, by simp [Labelling.step], List.prefix_rfl⟩
      · obtain ⟨hl, v, hv, hp⟩ := ih (by simpa [lastId, he] using h)
        refine ⟨?_, v, by simp [Labelling.step, hv], hp⟩
        simpa [Labelling.step, Function.update, Ne.symm he] using hl
    | build =>
      have hins : inserts (ops ++ [.build]) = inserts ops := by simp [inserts]
      rw [hins] at h
      obtain ⟨hl, hhas⟩ := ih h
      refine ⟨?_, hhas⟩
      have hmem : (labelling ops).Labelled w := ⟨hw, by simp [hl]⟩
      simp only [Labelling.step, if_pos hhas, longest_of_mem hmem, hl]

/-- A sequence that ends with a build matches every text like a fresh
automaton with the last ids if and only if no stale id is left behind. -/
theorem rebuild_eq_iff (ops : List Op) (hops : ∀ op ∈ ops, op.Valid) (fresh : Dict)
    (hfresh : fresh.Perm (lastEntries (inserts ops))) :
    ∃ A B, clear.run (ops ++ [.build]) = some A ∧
      (clear.insertAll fresh).buildAutomata = some B ∧
      (∀ text, (A.getMatch text).isSome ∧ (B.getMatch text).isSome) ∧
      ((∀ text, A.getMatch text = B.getMatch text) ↔ NoStaleId ops) := by
  obtain ⟨A₀, hA₀, hst⟩ := run_stores ops hops
  have hvalid : ∀ e ∈ inserts ops, e.1 ≠ [] ∧ e.2 ≠ None := by
    intro e he
    obtain ⟨op, hop, hsome⟩ := List.mem_filterMap.mp he
    cases op with
    | insert word id => cases hsome; exact hops _ hop
    | build => cases hsome
  have hvalidFresh : ∀ e ∈ fresh, e.1 ≠ [] ∧ e.2 ≠ None := fun e he =>
    hvalid e (lastId_mem (mem_lastEntries.mp (hfresh.mem_iff.mp he)))
  obtain ⟨A, -, hA, -⟩ := getMatch_build hst.trie []
  obtain ⟨B, -, hB, -⟩ := getMatch_exact fresh hvalidFresh []
  have hrun : clear.run (ops ++ [.build]) = some A := by
    simp only [run, List.foldlM_append] at hA₀ ⊢
    simpa [hA₀, step] using hA
  -- what either automaton yields for a text
  have hold : ∀ text, ∃ S, A.getMatch text = some S ∧
      ∀ i, i ∈ S ↔ ∃ w, w <:+: text ∧ (labelling ops).label w = some i := by
    intro text
    obtain ⟨A', S, hA', hS, hmem⟩ := getMatch_build hst.trie text
    obtain rfl : A = A' := Option.some.inj (hA.symm.trans hA')
    refine ⟨S, hS, fun i => ?_⟩
    rw [hmem]
    constructor
    · rintro ⟨hi, w, hne, hw, hid⟩
      rw [hst.id w hne] at hid
      cases hl : (labelling ops).label w with
      | none => simp [hl] at hid; exact absurd hid.symm hi
      | some j =>
        obtain rfl : j = i := by simpa [hl] using hid
        exact ⟨w, hw, hl⟩
    · rintro ⟨w, hw, hl⟩
      have hne : w ≠ [] := by
        rintro rfl
        simp [hst.nil] at hl
      exact ⟨hst.ne w i hl, w, hne, hw, by simp [hst.id w hne, hl]⟩
  have hnew : ∀ text, ∃ S, B.getMatch text = some S ∧
      ∀ i, i ∈ S ↔ ∃ w, w <:+: text ∧ lastId (inserts ops) w = some i := by
    intro text
    obtain ⟨B', S, hB', hS, hmem⟩ := getMatch_exact fresh hvalidFresh text
    obtain rfl : B = B' := Option.some.inj (hB.symm.trans hB')
    refine ⟨S, hS, fun i => ?_⟩
    rw [hmem]
    simp only [lastId_fresh hfresh, and_comm]
  refine ⟨A, B, hrun, hB, fun text => ?_, ?_, ?_⟩
  · obtain ⟨S, hS, -⟩ := hold text
    obtain ⟨T, hT, -⟩ := hnew text
    simp [hS, hT]
  · -- the word itself, as a text, shows a stale id
    intro heq w i hl
    obtain ⟨S, hS, hmemS⟩ := hold w
    obtain ⟨T, hT, hmemT⟩ := hnew w
    obtain rfl : S = T := Option.some.inj (hS.symm.trans ((heq w).trans hT))
    exact (hmemT i).mp ((hmemS i).mpr ⟨w, List.infix_rfl, hl⟩)
  · intro hstale text
    obtain ⟨S, hS, hmemS⟩ := hold text
    obtain ⟨T, hT, hmemT⟩ := hnew text
    rw [hS, hT]
    congr 1
    ext i
    rw [hmemS, hmemT]
    constructor
    · rintro ⟨w, hw, hl⟩
      obtain ⟨v, hv, hlast⟩ := hstale w i hl
      exact ⟨v, hv.trans hw, hlast⟩
    · rintro ⟨w, hw, hl⟩
      have hne : w ≠ [] := (hvalid _ (lastId_mem hl)).1
      exact ⟨w, hw, (label_of_lastId ops hne hl).1⟩

theorem inserted_of_label (ops : List Op) {w : List UInt8} {i : Int}
    (h : (labelling ops).label w = some i) : ∃ v, v <:+: w ∧ (v, i) ∈ inserts ops := by
  induction ops using List.reverseRecOn generalizing w with
  | nil => cases h
  | append_singleton ops op ih =>
    have hlab : labelling (ops ++ [op]) = (labelling ops).step op := by simp [labelling]
    rw [hlab] at h
    cases op with
    | insert word id =>
      have hins : inserts (ops ++ [.insert word id]) = inserts ops ++ [(word, id)] := by
        simp [inserts]
      rw [hins]
      by_cases he : w = word
      · subst he
        obtain rfl : id = i := by simpa [Labelling.step] using h
        exact ⟨w, List.infix_rfl, by simp⟩
      · obtain ⟨v, hv, hmem⟩ := ih (by simpa [Labelling.step, he] using h)
        exact ⟨v, hv, List.mem_append_left _ hmem⟩
    | build =>
      have hins : inserts (ops ++ [.build]) = inserts ops := by simp [inserts]
      rw [hins]
      simp only [Labelling.step] at h
      split at h
      · obtain ⟨v, hv, hmem⟩ := ih h
        exact ⟨v, hv.trans (longest_suffix _ _).isInfix, hmem⟩
      · cases h

theorem noStaleId_of_nodup {ops : List Op} (h : ((inserts ops).map Prod.fst).Nodup) :
    NoStaleId ops := by
  intro w i hl
  obtain ⟨v, hv, hmem⟩ := inserted_of_label ops hl
  exact ⟨v, hv, (lastId_of_nodup h).mpr hmem⟩

/-- he, shea and his with a build behind each: the second build copies the id of he
to the node of she, where the third one finds it. -/
theorem rebuild_eq_iff_thrice :
    let ops : List Op := [.insert [104, 101] 2, .build, .insert [115, 104, 101, 97] 9, .build,
      .insert [104, 105, 115] 7]
    let fresh : Dict := [([104, 101], 2), ([115, 104, 101, 97], 9), ([104, 105, 115], 7)]
    (∃ A B, clear.run (ops ++ [.build]) = some A ∧ (clear.insertAll fresh).buildAutomata = some B ∧
      (∀ text, (A.getMatch text).isSome ∧ (B.getMatch text).isSome) ∧
      ((∀ text, A.getMatch text = B.getMatch text) ↔ NoStaleId ops)) ∧ NoStaleId ops := by
  intro ops fresh
  exact ⟨rebuild_eq_iff ops (by simp [ops, Op.Valid, None]) fresh (List.Perm.of_eq (by decide)),
    noStaleId_of_nodup (by decide)⟩

/-- she is only a prefix of shea. The first build copies the id 2 of he to it;
he is inserted again with id 5, and the second build keeps the 2. -/
theorem rebuild_keeps_stale_id :
    let ops : List Op := [.insert [115, 104, 101, 97] 9, .insert [104, 101] 2, .build,
      .insert [104, 101] 5, .build]
    let fresh : Dict := [([115, 104, 101, 97], 9), ([104, 101], 5)]
    (∀ op ∈ ops, op.Valid) ∧ fresh = lastEntries (inserts ops) ∧
      ((clear.run ops).bind fun A => A.getMatch [115, 104, 101]).map OrdSet.elems = some [2, 5] ∧
      ((clear.insertAll fresh).buildAutomata.bind fun B =>
        B.getMatch [115, 104, 101]).map OrdSet.elems = some [5] := by
  refine ⟨by simp [Op.Valid, None], by decide, by decide +kernel, by decide +kernel⟩

end TextMining.AhoCorasick
