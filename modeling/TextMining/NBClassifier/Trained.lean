import TextMining.NBClassifier.AddWord
import TextMining.NBClassifier.MaxTrainDataNum

/-!
# Trained models

What every model keeps that `GetNBModel` leaves behind: the tree of the
classes, a number for each hash, and records whose strings fit their arrays
and whose classes are in the tree.
-/

namespace TextMining.NBClassifier

open ClassMap (links IsTree)

-- ---------------------------------------------------------------------------
-- Records
-- ---------------------------------------------------------------------------

/-- The string of a record fits its array, and its classes are in the map. -/
structure RecordOk (m : ClassMap) (t : TermInfo) : Prop where
  short : t.termstr.length < 80
  string : ∀ b ∈ t.termstr, b ≠ 0
  classDf : ∀ c ∈ t.classDf, c ∈ m
  classItemDf : ∀ c ∈ t.classItemDf, c ∈ m

section
variable {m : ClassMap} {classTree : List Int32} {weight : Int32} {info : TermInfo}

theorem recordOk_newTerm (hc : ∀ c ∈ classTree, c ∈ m) (term : List UInt8) :
    RecordOk m (State.newTerm classTree term weight) := by
  have hkeys : ∀ (v k : Int32), k ∈ classTree.foldl (fun m c => m.insert c v) (.empty : OrdMap _ _) →
      k ∈ m := fun v k hk => by
    obtain ⟨n, hn⟩ := OrdMap.mem_iff.mp hk
    rw [lookup_insertEach] at hn
    by_cases hkc : k ∈ classTree
    · exact hc k hkc
    · rw [if_neg hkc] at hn
      cases hn
  exact ⟨Nat.lt_succ_of_le (length_snprintf_le 80 term), snprintf_ne_zero, hkeys _, hkeys _⟩

theorem RecordOk.countClass (h : RecordOk m info) {c : Int32} (hc : c ∈ m) :
    RecordOk m (State.countClass weight info c) := by
  have hins : ∀ {n : OrdMap Int32 Int32}, (∀ k ∈ n, k ∈ m) → ∀ v, ∀ k ∈ n.insert c v, k ∈ m :=
    fun hn v k hk => (OrdMap.mem_insert.mp hk).elim (fun he => he ▸ hc) (hn k)
  unfold State.countClass
  cases info.classDf.lookup c with
  | none => exact ⟨h.short, h.string, hins h.classDf _, hins h.classItemDf _⟩
  | some n => exact ⟨h.short, h.string, hins h.classDf _, hins h.classItemDf _⟩

theorem RecordOk.againTerm (h : RecordOk m info) (hc : ∀ c ∈ classTree, c ∈ m) :
    RecordOk m (State.againTerm classTree weight info) := by
  have hfold : ∀ (cs : List Int32) (info : TermInfo), (∀ c ∈ cs, c ∈ m) → RecordOk m info →
      RecordOk m (cs.foldl (State.countClass weight) info) := by
    intro cs
    induction cs with
    | nil => exact fun _ _ h => h
    | cons c cs ih =>
      exact fun info hc h => ih _ (fun k hk => hc k (by simp [hk])) (h.countClass (hc c (by simp)))
  exact hfold classTree _ hc ⟨h.short, h.string, h.classDf, h.classItemDf⟩

end

structure Sound (s₀ s : State) : Prop where
  tree : SameTree s₀ s
  indexed : Indexed s
  records : ∀ t ∈ s.mNBTerms, RecordOk s₀.classNodeMap t

section
variable {env : Env} {s₀ s : State}

theorem SameTree.mem_iff {s t : State} (h : SameTree s t) {c : Int32} :
    c ∈ t.classNodeMap ↔ c ∈ s.classNodeMap := by
  rw [← ClassMap.links_isSome, h.links, ClassMap.links_isSome]

theorem Untrained.sound (h : Untrained s) : Sound s s :=
  ⟨.refl s, h.indexed, by simp [h.terms]⟩

theorem records_addTerm {m : ClassMap} {classTree : List Int32} (hc : ∀ c ∈ classTree, c ∈ m)
    (h : ∀ t ∈ s.mNBTerms, RecordOk m t) (e : List UInt8 × Int32) :
    ∀ t ∈ (State.addTerm env classTree s e).mNBTerms, RecordOk m t := by
  cases hl : s.termHashMap.lookup (env.hashlittle e.1) with
  | none =>
    rw [addTerm_of_none hl]
    intro t ht
    rcases List.mem_append.mp ht with ht | ht
    · exact h t ht
    · rw [List.mem_singleton.mp ht]
      exact recordOk_newTerm hc e.1
  | some i =>
    rw [addTerm_of_some hl]
    intro t ht
    obtain ⟨j, hj⟩ := List.mem_iff_getElem?.mp ht
    by_cases hij : i.toNat = j
    · subst hij
      rw [List.getElem?_modify_eq, Option.map_eq_map, Option.map_eq_some_iff] at hj
      obtain ⟨t', ht', rfl⟩ := hj
      exact (h t' (List.mem_of_getElem? ht')).againTerm hc
    · rw [List.getElem?_modify_ne _ _ hij] at hj
      exact h t (List.mem_of_getElem? hj)

theorem records_addTerms {m : ClassMap} {classTree : List Int32} (hc : ∀ c ∈ classTree, c ∈ m)
    (h : ∀ t ∈ s.mNBTerms, RecordOk m t) (es : List (List UInt8 × Int32)) :
    ∀ t ∈ (es.foldl (State.addTerm env classTree) s).mNBTerms, RecordOk m t := by
  induction es generalizing s with
  | nil => exact h
  | cons e es ih => exact ih (records_addTerm hc h e)

variable (env) in
theorem sameTree_train (hs : IsTree s.classNodeMap) (cfg : TrainConfig) (lines : List TrainLine) :
    SameTree s (s.train env cfg lines) := by
  induction lines generalizing s with
  | nil => exact .refl s
  | cons l lines ih =>
    rw [State.train, List.foldl_cons, ← State.train, State.getNBFrmOriginalLine]
    cases hi : s.trainItem env cfg l with
    | none => exact ih hs
    | some item =>
      have hsame := sameTree_learn hs hi
      exact hsame.trans (ih (hsame.isTree hs))

theorem Sound.learn (h : Sound s₀ s) (hs₀ : IsTree s₀.classNodeMap) {cfg : TrainConfig}
    {l : TrainLine} {item : TrainItem} (hi : s.trainItem env cfg l = some item) :
    Sound s₀ (s.learn env item) := by
  have hs := h.tree.isTree hs₀
  have hi' : Indexed (s.addWord env item.terms item.classes) := h.indexed.addTerms _
  refine ⟨h.tree.trans (sameTree_learn hs hi), ⟨hi'.hashNum, hi'.size, hi'.range, hi'.inj⟩, ?_⟩
  exact records_addTerms (fun c hc => h.tree.mem_iff.mp ((trainItem_classes hs hi).2 c hc)) h.records _

variable (env) in
theorem Sound.train (h : Sound s₀ s) (hs₀ : IsTree s₀.classNodeMap) (cfg : TrainConfig)
    (lines : List TrainLine) : Sound s₀ (s.train env cfg lines) := by
  induction lines generalizing s with
  | nil => exact h
  | cons l lines ih =>
    rw [State.train, List.foldl_cons, ← State.train, State.getNBFrmOriginalLine]
    cases hi : s.trainItem env cfg l with
    | none => exact ih h
    | some item => exact ih (h.learn hs₀ hi)

end

-- ---------------------------------------------------------------------------
-- The model
-- ---------------------------------------------------------------------------

section
variable {env : Env} {s₀ s t : State} {cfg : TrainConfig} {lines : List TrainLine}

variable (env) in
theorem getNBModel_spec (hs : IsTree s.classNodeMap) (hroot : (s.node 0).sons ≠ [])
    (cfg : TrainConfig) (lines : List TrainLine) : ∃ t, s.getNBModel env cfg lines = some t := by
  have htree := sameTree_train env hs cfg lines
  have hne : (ClassMap.node (s.train env cfg lines).classNodeMap 0).sons ≠ [] := by
    rw [ClassMap.sons_node, htree.links, ← ClassMap.sons_node]
    exact hroot
  obtain ⟨n, hn, -, -⟩ := setMaxTrainDataNum_root (htree.isTree hs) hne
  exact ⟨_, Option.map_eq_some_iff.mpr ⟨n, hn, rfl⟩⟩

theorem getNBModel_cases (hs : IsTree s.classNodeMap) (hm : s.getNBModel env cfg lines = some t) :
    (s.node 0).sons ≠ [] ∧ ∃ n, SameClasses (s.train env cfg lines).classNodeMap n ∧
      t = { (s.train env cfg lines).calcTermIdf with classNodeMap := n } := by
  obtain ⟨n, hn, rfl⟩ := Option.map_eq_some_iff.mp hm
  have htree := sameTree_train env hs cfg lines
  have hne : (ClassMap.node (s.train env cfg lines).classNodeMap 0).sons ≠ [] := by
    intro hnil
    have hn' : setMaxTrainDataNum _ (ClassMap.node (s.train env cfg lines).classNodeMap 0).sons
        (s.train env cfg lines).classNodeMap = some n := hn
    rw [hnil, setMaxTrainDataNum_nil] at hn'
    cases hn'
  obtain ⟨n', hn', hsame, -⟩ := setMaxTrainDataNum_root (htree.isTree hs) hne
  obtain rfl : n = n' := Option.some.inj (hn.symm.trans hn')
  refine ⟨?_, n, hsame, rfl⟩
  rwa [ClassMap.sons_node, htree.links, ← ClassMap.sons_node] at hne

theorem Sound.getNBModel (h : Sound s₀ s) (hs₀ : IsTree s₀.classNodeMap)
    (hm : s.getNBModel env cfg lines = some t) : Sound s₀ t := by
  obtain ⟨-, n, hsame, rfl⟩ := getNBModel_cases (h.tree.isTree hs₀) hm
  obtain ⟨htree, hindexed, hrecords⟩ := h.train env hs₀ cfg lines
  refine ⟨⟨htree.names, hsame.links.trans htree.links, hsame.size.trans htree.size⟩, ?_, ?_⟩
  · refine ⟨?_, ?_, ?_, hindexed.inj⟩
    · simpa [State.calcTermIdf] using hindexed.hashNum
    · simpa [State.calcTermIdf] using hindexed.size
    · simpa [State.calcTermIdf] using hindexed.range
  · intro t ht
    obtain ⟨t', ht', rfl⟩ := List.mem_map.mp ht
    obtain ⟨h1, h2, h3, h4⟩ := hrecords t' ht'
    exact ⟨h1, h2, h3, h4⟩

end

end TextMining.NBClassifier
