import TextMining.NBClassifier.Reload
import TextMining.NBClassifier.Score

/-!
# Using a model that was read back

A reloaded model leads every hash to the record it had, so it scores as
before. But it has one record too many: the next new term is numbered with the
record of no term.
-/

namespace TextMining.NBClassifier

open ClassMap (links IsTree)

-- ---------------------------------------------------------------------------
-- Scores
-- ---------------------------------------------------------------------------

section
variable {env : Env} {s t : State}

theorem Reloaded.lookup_term {s₀ : State} (h : Reloaded s₀ s t) (hs : Indexed s) {hash i : UInt32}
    (hl : s.termHashMap.lookup hash = some i) :
    ∃ info, s.mNBTerms[i.toNat]? = some info ∧ t.mNBTerms[i.toNat]? = some info := by
  have hlt := hs.range hash i hl
  obtain ⟨extra, he⟩ := h.terms
  refine ⟨s.mNBTerms[i.toNat], List.getElem?_eq_getElem hlt, ?_⟩
  rw [he, List.getElem?_append_left hlt, List.getElem?_eq_getElem hlt]

theorem Reloaded.info {s₀ : State} (h : Reloaded s₀ s t) (hs : Indexed s) (term : List UInt8) :
    t.info env term = s.info env term := by
  rw [State.info, h.hashes, State.info]
  cases hl : s.termHashMap.lookup (env.hashlittle term) with
  | none => rfl
  | some i =>
    obtain ⟨info, hi, hi'⟩ := h.lookup_term hs hl
    rw [Option.bind_some, Option.bind_some, hi, hi']

structure SameModel (env : Env) (s t : State) : Prop where
  info : ∀ term, t.info env term = s.info env term
  father : ∀ c, (t.node c).fatherId = (s.node c).fatherId
  train : ∀ c, (t.node c).trainDataNum = (s.node c).trainDataNum
  sonMax : ∀ c, (t.node c).sonMaxTrainDataNum = (s.node c).sonMaxTrainDataNum
  learning : t.totalLearningItemNum = s.totalLearningItemNum

theorem match_info {β : Type*} (env : Env) (s : State) (term : List UInt8) (b : β)
    (f : TermInfo → β) :
    (match s.termHashMap.lookup (env.hashlittle term) with
      | none => b
      | some index =>
        match s.mNBTerms[index.toNat]? with
        | none => b
        | some info => f info) = ((s.info env term).map f).getD b := by
  rw [State.info]
  cases s.termHashMap.lookup (env.hashlittle term) with
  | none => rfl
  | some i =>
    simp only [Option.bind_some]
    cases s.mNBTerms[i.toNat]? with
    | none => rfl
    | some info => rfl

theorem SameModel.classScore (h : SameModel env s t) (words : List (List UInt8 × Int32))
    (c : Int32) : t.classScore env words c = s.classScore env words c := by
  simp only [State.classScore, h.father, h.train, h.sonMax, h.learning]
  refine congrArg (fun f => List.foldl f 0 words) ?_
  funext score word
  split
  · rfl
  · refine (match_info env t word.1 score _).trans ?_
    rw [h.info]
    exact (match_info env s word.1 score _).symm

theorem SameModel.topNClassScore (h : SameModel env s t) (currentScore : Float32)
    (terms : List (List UInt8 × Int32)) (c : Int32) :
    t.topNClassScore env currentScore terms c = s.topNClassScore env currentScore terms c := by
  simp only [State.topNClassScore, h.train, h.learning]
  refine congrArg (fun f => List.foldl f currentScore terms) ?_
  funext score term
  refine (match_info env t term.1 score _).trans ?_
  rw [h.info]
  exact (match_info env s term.1 score _).symm

end

section
variable {s₀ s t : State}

theorem Reloaded.node (h : Reloaded s₀ s t) (hs : SameTree s₀ s) (c : Int32) :
    (t.node c).fatherId = (s.node c).fatherId ∧ (t.node c).termNum = (s.node c).termNum ∧
      (t.node c).trainDataNum = (s.node c).trainDataNum ∧
      (t.node c).sonMaxTrainDataNum = (s.node c).sonMaxTrainDataNum := by
  have hlinks : links t.classNodeMap = links s.classNodeMap := by
    rw [h.classes, links_withCounters, hs.links]
  refine ⟨?_, ?_⟩
  · rw [State.node, ClassMap.fatherId_node, hlinks, ← ClassMap.fatherId_node]
    rfl
  · by_cases hc : c ∈ s₀.classNodeMap
    · rw [State.node, h.classes]
      exact node_withCounters hc (hs.mem_iff.mpr hc)
    · have hnone : ∀ m : ClassMap, links m = links s₀.classNodeMap → m.lookup c = none :=
        fun m hm => by
          rw [OrdMap.lookup_eq_none, ← ClassMap.links_isSome, hm, ClassMap.links_isSome]
          exact hc
      rw [State.node, ClassMap.node, hnone _ (hlinks.trans hs.links), State.node, ClassMap.node,
        hnone _ hs.links]
      exact ⟨rfl, rfl, rfl⟩

end

/-- A reloaded model has the hashes, the records and the counters of the trained
one, and scores every class the same. -/
theorem reload_scores (env : Env) (cfg : TrainConfig) (tree : List TreeLine)
    (lines : List TrainLine) :
    ∃ s₀, loadClassTree env tree = some s₀ ∧
      ∀ s, s₀.getNBModel env cfg lines = some s → s.mNBTerms ≠ [] →
      s₀.classNodeMap.size < 2 ^ 31 → ∀ ord junk unset,
      ∃ t, s₀.loadNBModel unset (s.dumpNBModel ord junk) = some t ∧
        (∀ hash, t.termHashMap.lookup hash = s.termHashMap.lookup hash) ∧
        (∀ hash i, t.termHashMap.lookup hash = some i → i.toNat < t.mNBTerms.length ∧
          ∃ info, s.mNBTerms[i.toNat]? = some info ∧ t.mNBTerms[i.toNat]? = some info) ∧
        (∀ c, (t.node c).termNum = (s.node c).termNum ∧
          (t.node c).trainDataNum = (s.node c).trainDataNum ∧
          (t.node c).sonMaxTrainDataNum = (s.node c).sonMaxTrainDataNum) ∧
        t.totalLearningItemNum = s.totalLearningItemNum ∧
        ∀ words c, t.classScore env words c = s.classScore env words c ∧
          ∀ currentScore, t.topNClassScore env currentScore words c =
            s.topNClassScore env currentScore words c := by
  obtain ⟨s₀, hload, htree, huntrained⟩ := loadClassTree_spec env tree
  refine ⟨s₀, hload, fun s hs hne hsize ord junk unset => ?_⟩
  have hsound : Sound s₀ s := huntrained.sound.getNBModel htree hs
  obtain ⟨t, ht, hre⟩ := loadNBModel_dump htree huntrained hsound hsize hne ord junk unset
  have hmodel : SameModel env s t :=
    ⟨hre.info hsound.indexed, fun c => (hre.node hsound.tree c).1,
      fun c => (hre.node hsound.tree c).2.2.1, fun c => (hre.node hsound.tree c).2.2.2, hre.learning⟩
  refine ⟨t, ht, hre.hashes, fun hash i hi => ?_, fun c => (hre.node hsound.tree c).2, hre.learning,
    fun words c => ⟨hmodel.classScore words c, fun cur => hmodel.topNClassScore cur words c⟩⟩
  rw [hre.hashes] at hi
  obtain ⟨info, hi, hi'⟩ := hre.lookup_term hsound.indexed hi
  exact ⟨(List.getElem?_eq_some_iff.mp hi').1, info, hi, hi'⟩

theorem twoLineModel : ∃ s₀ s, loadClassTree plainEnv twoClassTree = some s₀ ∧
    s₀.getNBModel plainEnv plainConfig [wordLine, cakeLine] = some s ∧ s.mNBTerms ≠ [] ∧
    s₀.classNodeMap.size < 2 ^ 31 := by
  obtain ⟨s₀, hload, htree, huntrained⟩ := loadClassTree_spec plainEnv twoClassTree
  have hrun : (loadClassTree plainEnv twoClassTree).map (fun s =>
      ((s.node 0).sons, s.classNodeMap.size,
        (s.train plainEnv plainConfig [wordLine, cakeLine]).mNBTerms.length)) = some ([1, 2], 3, 2) := by
    decide +kernel
  rw [hload, Option.map_some, Option.some.injEq, Prod.mk.injEq, Prod.mk.injEq] at hrun
  obtain ⟨hsons, hsize, hlength⟩ := hrun
  obtain ⟨s, hs⟩ := getNBModel_spec plainEnv htree (by simp [hsons]) plainConfig [wordLine, cakeLine]
  refine ⟨s₀, s, hload, hs, fun hnil => ?_, by rw [hsize]; decide⟩
  obtain ⟨-, n, -, rfl⟩ := getNBModel_cases htree hs
  have hlength' := congrArg List.length hnil
  simp [State.calcTermIdf, hlength] at hlength'

def zeroUnset : Unset :=
  ⟨fun _ => ⟨[], 0, 0, 0, 0, fun _ => (0, 0), fun _ => (0, 0)⟩, 0, 0, [], 0, 0, 0, 0⟩

theorem reload_scores_two_lines : ∃ s₀ s t, loadClassTree plainEnv twoClassTree = some s₀ ∧
    s₀.getNBModel plainEnv plainConfig [wordLine, cakeLine] = some s ∧
    s₀.loadNBModel zeroUnset (s.dumpNBModel (.held _ _) fun _ => []) = some t ∧
    ∀ c, t.classScore plainEnv [(text "cake", 1), (text "word", 2)] c =
      s.classScore plainEnv [(text "cake", 1), (text "word", 2)] c := by
  obtain ⟨s₀, s, hload, hs, hne, hsize⟩ := twoLineModel
  obtain ⟨s', hload', h⟩ := reload_scores plainEnv plainConfig twoClassTree [wordLine, cakeLine]
  obtain rfl : s₀ = s' := Option.some.inj (hload.symm.trans hload')
  obtain ⟨t, ht, -, -, -, -, hscore⟩ := h s hs hne hsize (.held _ _) (fun _ => []) zeroUnset
  exact ⟨s₀, s, t, hload, hs, ht, fun c => (hscore _ c).1⟩

-- ---------------------------------------------------------------------------
-- Further training
-- ---------------------------------------------------------------------------

def TermInfo.counters (t : TermInfo) :
    Int32 × Int32 × OrdMap Int32 Int32 × OrdMap Int32 Int32 :=
  (t.df, t.totalClassItemDf, t.classDf, t.classItemDf)

/-- The outcome `t` of training is that of `s`, and passes the check of
`GetNBModel`. -/
structure SameTraining (env : Env) (s t : State) : Prop where
  terms : ∀ term, (t.info env term).map TermInfo.counters = (s.info env term).map TermInfo.counters
  classes : ∀ c, (t.node c).termNum = (s.node c).termNum ∧
    (t.node c).trainDataNum = (s.node c).trainDataNum ∧
    (t.node c).sonMaxTrainDataNum = (s.node c).sonMaxTrainDataNum
  classNum : t.totalClassNum = s.totalClassNum
  termNum : t.totalTermNum = s.totalTermNum
  learning : t.totalLearningItemNum = s.totalLearningItemNum
  hashNum : t.totalTermHashNum = s.totalTermHashNum
  size : (t.mNBTerms.length : Int) = t.totalTermHashNum.toInt

/-- There is one record more than there are hashes. -/
structure Shifted (s : State) : Prop where
  length : s.mNBTerms.length = s.termHashMap.size + 1
  hashNum : s.totalTermHashNum = Int32.ofNat s.termHashMap.size

section
variable {env : Env} {s t : State} {cfg : TrainConfig}

theorem Reloaded.shifted {s₀ : State} (h : Reloaded s₀ s t) (hs : Indexed s) : Shifted t := by
  have hsize : t.termHashMap.size = s.mNBTerms.length :=
    (HashMap.size_congr h.hashes).trans hs.size
  obtain ⟨extra, he⟩ := h.terms
  exact ⟨by rw [he, hsize, List.length_append, List.length_singleton],
    by rw [hsize, h.hashNum, hs.hashNum]⟩

theorem Shifted.addTerm (h : Shifted s) (classTree : List Int32) (e : List UInt8 × Int32) :
    Shifted (State.addTerm env classTree s e) := by
  cases hl : s.termHashMap.lookup (env.hashlittle e.1) with
  | none =>
    have hsize := HashMap.size_insert s.totalTermHashNum.toUInt32 (AList.lookup_eq_none.mp hl)
    rw [addTerm_of_none hl]
    refine ⟨?_, ?_⟩
    · rw [hsize, List.length_append, List.length_singleton, h.length]
    · rw [hsize, Int32.ofNat_add, ← h.hashNum]
      rfl
  | some i =>
    rw [addTerm_of_some hl]
    exact ⟨by rw [List.length_modify, h.length], h.hashNum⟩

variable (env) in
theorem Shifted.addTerms (h : Shifted s) (classTree : List Int32) (es : List (List UInt8 × Int32)) :
    Shifted (es.foldl (State.addTerm env classTree) s) := by
  induction es generalizing s with
  | nil => exact h
  | cons e es ih => exact ih (h.addTerm classTree e)

variable (env cfg) in
theorem Shifted.train (h : Shifted s) (lines : List TrainLine) :
    Shifted (s.train env cfg lines) := by
  induction lines generalizing s with
  | nil => exact h
  | cons l lines ih =>
    rw [State.train, List.foldl_cons, ← State.train, State.getNBFrmOriginalLine]
    cases s.trainItem env cfg l with
    | none => exact ih h
    | some item =>
      have hadd := h.addTerms env item.classes item.terms.entries
      exact ih ⟨hadd.length, hadd.hashNum⟩

theorem Shifted.getNBModel (h : Shifted s) {lines : List TrainLine}
    (hm : s.getNBModel env cfg lines = some t) : Shifted t := by
  obtain ⟨n, -, rfl⟩ := Option.map_eq_some_iff.mp hm
  have hrun := h.train env cfg lines
  exact ⟨by simpa [State.calcTermIdf] using hrun.length, hrun.hashNum⟩

/-- The hash of a new term leads to the record before its own. -/
theorem Shifted.info_new (h : Shifted s) {e : List UInt8 × Int32}
    (hnew : env.hashlittle e.1 ∉ s.termHashMap) (classTree : List Int32) :
    (State.addTerm env classTree s e).info env e.1 = s.mNBTerms.getLast? := by
  have hidx : s.totalTermHashNum.toUInt32.toNat = s.termHashMap.size := by
    rw [h.hashNum, Int32.toUInt32_ofNat', UInt32.toNat_ofNat_of_lt' (HashMap.size_lt_of_missing hnew)]
  rw [addTerm_of_none (AList.lookup_eq_none.mpr hnew), State.info, AList.lookup_insert,
    Option.bind_some, hidx, List.getElem?_append_left (by rw [h.length]; exact Nat.lt_succ_self _),
    List.getLast?_eq_getElem?, h.length, Nat.add_sub_cancel]

theorem Shifted.size_ne (h : Shifted s) : (s.mNBTerms.length : Int) ≠ s.totalTermHashNum.toInt := by
  rw [h.length, h.hashNum, Int32.toInt_ofNat']
  intro he
  have hmod : ((s.termHashMap.size + 1 : Nat) : Int) % 2 ^ 32 = s.termHashMap.size % 2 ^ 32 := by
    rw [he]
    exact Int.bmod_emod
  omega

end

variable (env) in
theorem Reloaded.models {s₀ s₁ t₁ : State} (h : Reloaded s₀ s₁ t₁) (hs₀ : IsTree s₀.classNodeMap)
    (hs₁ : SameTree s₀ s₁) (hroot : (s₀.node 0).sons ≠ []) (cfg : TrainConfig)
    (lines : List TrainLine) :
    ∃ s t, s₁.getNBModel env cfg lines = some s ∧ t₁.getNBModel env cfg lines = some t := by
  have hlinks : links t₁.classNodeMap = links s₀.classNodeMap := by rw [h.classes, links_withCounters]
  have hsize : t₁.classNodeMap.size = s₀.classNodeMap.size := OrdMap.size_congr fun c => by
    rw [← ClassMap.links_isSome, hlinks, ClassMap.links_isSome]
  have hsons : ∀ {u : State}, links u.classNodeMap = links s₀.classNodeMap → (u.node 0).sons ≠ [] := by
    intro u hu
    rw [State.node, ClassMap.sons_node, hu, ← ClassMap.sons_node]
    exact hroot
  obtain ⟨s, hs⟩ := getNBModel_spec env (hs₁.isTree hs₀) (hsons hs₁.links) cfg lines
  obtain ⟨t, ht⟩ := getNBModel_spec env (hs₀.congr hlinks hsize) (hsons hlinks) cfg lines
  exact ⟨s, t, hs, ht⟩

/-- Training that goes on after a reload never ends as it would in one classifier. -/
theorem continue_ne (env : Env) (cfg : TrainConfig) (tree : List TreeLine)
    (lines₁ lines₂ : List TrainLine) :
    ∃ s₀, loadClassTree env tree = some s₀ ∧
      ∀ s₁, s₀.getNBModel env cfg lines₁ = some s₁ → s₁.mNBTerms ≠ [] →
      s₀.classNodeMap.size < 2 ^ 31 → ∀ ord junk unset,
      ∃ t₁, s₀.loadNBModel unset (s₁.dumpNBModel ord junk) = some t₁ ∧
        ∃ s t, s₁.getNBModel env cfg lines₂ = some s ∧ t₁.getNBModel env cfg lines₂ = some t ∧
          ¬ SameTraining env s t := by
  obtain ⟨s₀, hload, htree, huntrained⟩ := loadClassTree_spec env tree
  refine ⟨s₀, hload, fun s₁ hs₁ hne hsize ord junk unset => ?_⟩
  have hsound : Sound s₀ s₁ := huntrained.sound.getNBModel htree hs₁
  obtain ⟨t₁, ht₁, hre⟩ := loadNBModel_dump htree huntrained hsound hsize hne ord junk unset
  obtain ⟨s, t, hs, ht⟩ :=
    hre.models env htree hsound.tree (getNBModel_cases htree hs₁).1 cfg lines₂
  exact ⟨t₁, ht₁, s, t, hs, ht, fun hsame =>
    ((hre.shifted hsound.indexed).getNBModel ht).size_ne hsame.size⟩

theorem continue_ne_two_lines : ∃ s₀ s₁ t₁, loadClassTree plainEnv twoClassTree = some s₀ ∧
    s₀.getNBModel plainEnv plainConfig [wordLine, cakeLine] = some s₁ ∧
    s₀.loadNBModel zeroUnset (s₁.dumpNBModel (.held _ _) fun _ => []) = some t₁ ∧
    ∃ s t, s₁.getNBModel plainEnv plainConfig [cakeLine] = some s ∧
      t₁.getNBModel plainEnv plainConfig [cakeLine] = some t ∧ ¬ SameTraining plainEnv s t := by
  obtain ⟨s₀, s₁, hload, hs₁, hne, hsize⟩ := twoLineModel
  obtain ⟨s', hload', h⟩ := continue_ne plainEnv plainConfig twoClassTree [wordLine, cakeLine] [cakeLine]
  obtain rfl : s₀ = s' := Option.some.inj (hload.symm.trans hload')
  obtain ⟨t₁, ht₁, s, t, hs, ht, hsame⟩ := h s₁ hs₁ hne hsize (.held _ _) (fun _ => []) zeroUnset
  exact ⟨s₀, s₁, t₁, hload, hs₁, ht₁, s, t, hs, ht, hsame⟩

/-- After a model of two lines is read back, training on no line fails the check. -/
theorem reload_one_record_more : ∃ s₀ s₁ t₁ t, loadClassTree plainEnv twoClassTree = some s₀ ∧
    s₀.getNBModel plainEnv plainConfig [wordLine, cakeLine] = some s₁ ∧
    s₀.loadNBModel zeroUnset (s₁.dumpNBModel (.held _ _) fun _ => []) = some t₁ ∧
    t₁.getNBModel plainEnv plainConfig [] = some t ∧
    (t.mNBTerms.length : Int) ≠ t.totalTermHashNum.toInt := by
  obtain ⟨s₀, s₁, hload, hs₁, hne, hsize⟩ := twoLineModel
  obtain ⟨s', hload', htree, huntrained⟩ := loadClassTree_spec plainEnv twoClassTree
  obtain rfl : s₀ = s' := Option.some.inj (hload.symm.trans hload')
  have hsound : Sound s₀ s₁ := huntrained.sound.getNBModel htree hs₁
  obtain ⟨t₁, ht₁, hre⟩ :=
    loadNBModel_dump htree huntrained hsound hsize hne (.held _ _) (fun _ => []) zeroUnset
  obtain ⟨-, t, -, ht⟩ := hre.models plainEnv htree hsound.tree
    (getNBModel_cases htree hs₁).1 plainConfig []
  exact ⟨s₀, s₁, t₁, t, hload, hs₁, ht₁, ht,
    ((hre.shifted hsound.indexed).getNBModel ht).size_ne⟩

end TextMining.NBClassifier
