import TextMining.Lib.Contingency
import TextMining.JenkinsHash.Keys
import TextMining.LibWb
import TextMining.NBClassifier.AddWord
import TextMining.NBClassifier.Score
import Mathlib.Data.Finset.Card

/-!
# The counters of a trained model

Training keeps the class tree and its names, so what a line adds does not
depend on the lines before it. Each counter is the number of items it is meant
to count.
-/

namespace TextMining.NBClassifier

open ClassMap (links IsTree)

-- ---------------------------------------------------------------------------
-- The classes of a line
-- ---------------------------------------------------------------------------

theorem ClassMap.sons_node (m : ClassMap) (c : Int32) :
    (ClassMap.node m c).sons = ((links m c).map Prod.snd).getD [] := by
  rw [ClassMap.node, links]
  cases m.lookup c <;> rfl

theorem ClassMap.fatherId_node (m : ClassMap) (c : Int32) :
    (ClassMap.node m c).fatherId = ((links m c).map Prod.fst).getD 0 := by
  rw [ClassMap.node, links]
  cases m.lookup c <;> rfl

structure SameTree (s t : State) : Prop where
  names : t.classNameMap = s.classNameMap
  links : links t.classNodeMap = links s.classNodeMap
  size : t.classNodeMap.size = s.classNodeMap.size

theorem SameTree.refl (s : State) : SameTree s s := ⟨rfl, rfl, rfl⟩

theorem SameTree.trans {s t u : State} (h : SameTree s t) (h' : SameTree t u) : SameTree s u :=
  ⟨h'.names.trans h.names, h'.links.trans h.links, h'.size.trans h.size⟩

theorem SameTree.isTree {s t : State} (h : SameTree s t) (hs : IsTree s.classNodeMap) :
    IsTree t.classNodeMap := hs.congr h.links h.size

theorem SameTree.matchLevels {s t : State} (h : SameTree s t) (types : List (List UInt8))
    (classIds classTree : List Int32) :
    t.matchLevels types classIds classTree = s.matchLevels types classIds classTree := by
  induction types generalizing classIds classTree with
  | nil => rfl
  | cons type types ih =>
    have hname : ∀ id, t.className id = s.className id := fun id => by
      rw [State.className, h.names, State.className]
    have hsons : ∀ id, (t.node id).sons = (s.node id).sons := fun id => by
      rw [State.node, State.node, ClassMap.sons_node, ClassMap.sons_node, h.links]
    simp only [State.matchLevels, hname, hsons, ih]

theorem SameTree.trainItem {s t : State} (h : SameTree s t) (env : Env) (cfg : TrainConfig)
    (l : TrainLine) : t.trainItem env cfg l = s.trainItem env cfg l := by
  have hsons : (t.node 0).sons = (s.node 0).sons := by
    rw [State.node, State.node, ClassMap.sons_node, ClassMap.sons_node, h.links]
  simp only [State.trainItem, hsons, h.matchLevels]

section
variable {s : State}

/-- The classes of a level lie at one depth, so no class is assigned twice. -/
theorem matchLevels_nodup {depth : Int32 → Nat}
    (ht : Forest.Tree 0 (links s.classNodeMap) s.classNodeMap.size depth)
    {types : List (List UInt8)} {classIds classTree classes : List Int32} {d : Nat}
    (hids : classIds.Nodup ∧ ∀ c ∈ classIds, c ∈ s.classNodeMap ∧ depth c = d)
    (htree : classTree.Nodup ∧ ∀ c ∈ classTree, c ∈ s.classNodeMap ∧ depth c < d)
    (h : s.matchLevels types classIds classTree = some classes) :
    classes.Nodup ∧ ∀ c ∈ classes, c ∈ s.classNodeMap := by
  induction types generalizing classIds classTree d with
  | nil =>
    cases h
    exact ⟨htree.1, fun c hc => (htree.2 c hc).1⟩
  | cons type types ih =>
    simp only [State.matchLevels] at h
    split at h
    · cases h
    · rename_i hid
      have hfound : ∀ c ∈ classIds.filter fun id => type = s.className id,
          c ∈ s.classNodeMap ∧ depth c = d := fun c hc => hids.2 c (List.mem_of_mem_filter hc)
      obtain ⟨c, hc⟩ : ∃ c, (classIds.filter fun id => type = s.className id).getLast? = some c := by
        cases hl : (classIds.filter fun id => type = s.className id).getLast? with
        | none => simp [hl] at hid
        | some c => exact ⟨c, rfl⟩
      rw [hc, Option.getD_some] at h hid
      obtain ⟨hcm, hcd⟩ := hfound c (List.mem_of_getLast? hc)
      obtain ⟨⟨p, ss⟩, hl⟩ := ClassMap.links_isSome.mpr hcm
      have hsons : (s.node c).sons = ss := by
        rw [State.node, ClassMap.sons_node, hl]
        rfl
      obtain ⟨hnd, hmem⟩ := ht.sons c p ss hl
      rw [hsons] at h
      refine ih (d := depth c + 1) ⟨hnd, fun k hk => ?_⟩ ⟨?_, fun k hk => ?_⟩ h
      · obtain ⟨hk0, ts, hlk⟩ := (hmem k).mp hk
        exact ⟨ClassMap.links_isSome.mp ⟨_, hlk⟩, (ht.father k c ts hlk hk0).2⟩
      · refine List.nodup_append.mpr ⟨htree.1, hids.1.filter _, fun a ha b hb he => ?_⟩
        have hlt := (htree.2 a ha).2
        rw [he, (hfound b hb).2] at hlt
        exact Nat.lt_irrefl _ hlt
      · rcases List.mem_append.mp hk with hk | hk
        · exact ⟨(htree.2 k hk).1, by rw [hcd]; exact Nat.lt_succ_of_lt (htree.2 k hk).2⟩
        · exact ⟨(hfound k hk).1, by rw [hcd, (hfound k hk).2]; exact Nat.lt_succ_self d⟩

theorem trainItem_classes (h : IsTree s.classNodeMap) {env : Env} {cfg : TrainConfig}
    {l : TrainLine} {item : TrainItem} (hi : s.trainItem env cfg l = some item) :
    item.classes.Nodup ∧ ∀ c ∈ item.classes, c ∈ s.classNodeMap := by
  obtain ⟨depth, ht⟩ := h
  obtain ⟨p, ss, hroot⟩ := ht.top
  obtain ⟨hnd, hmem⟩ := ht.sons 0 p ss hroot
  have hsons : (s.node 0).sons = ss := by
    rw [State.node, ClassMap.sons_node, hroot]
    rfl
  simp only [State.trainItem, hsons] at hi
  split at hi
  · split at hi
    · cases hi
    · split at hi
      · cases hi
      · rename_i classes hclasses
        split at hi
        · cases hi
        · cases hi
          refine matchLevels_nodup ht (d := depth 0 + 1) ⟨hnd, fun c hc => ?_⟩
            ⟨List.nodup_nil, by simp⟩ hclasses
          obtain ⟨hc0, ts, hl⟩ := (hmem c).mp hc
          exact ⟨ClassMap.links_isSome.mp ⟨_, hl⟩, (ht.father c 0 ts hl hc0).2⟩
  · cases hi

end

-- ---------------------------------------------------------------------------
-- The counters of a record
-- ---------------------------------------------------------------------------

def totalOf (o : Option TermInfo) : Int32 := (o.map TermInfo.totalClassItemDf).getD 0

def classOf (o : Option TermInfo) (c : Int32) : Int32 :=
  (o.bind fun info => info.classItemDf.lookup c).getD 0

/-- Both maps of a record hold the same classes. -/
def Paired (o : Option TermInfo) : Prop :=
  ∀ info, o = some info → ∀ c, c ∈ info.classDf ↔ c ∈ info.classItemDf

section
variable {classTree : List Int32} {term : List UInt8} {weight c : Int32}

theorem lookup_insertEach (v : Int32) (m : OrdMap Int32 Int32) :
    (classTree.foldl (fun m c => m.insert c v) m).lookup c =
      if c ∈ classTree then some v else m.lookup c := by
  induction classTree generalizing m with
  | nil => simp
  | cons k classTree ih =>
    rw [List.foldl_cons, ih, OrdMap.lookup_insert]
    by_cases hc : c ∈ classTree
    · simp [hc]
    · by_cases hk : c = k
      · simp [hk]
      · simp [hc, hk]

theorem countClass_total (info : TermInfo) (k : Int32) :
    (State.countClass weight info k).totalClassItemDf = info.totalClassItemDf := by
  unfold State.countClass
  cases info.classDf.lookup k <;> rfl

theorem Paired.countClass {info : TermInfo} (h : Paired (some info)) (weight k : Int32) :
    Paired (some (State.countClass weight info k)) ∧
      ∀ c, classOf (some (State.countClass weight info k)) c =
        classOf (some info) c + if c = k then 1 else 0 := by
  have hp := h info rfl
  unfold State.countClass
  cases hl : info.classDf.lookup k with
  | none =>
    have hk : info.classItemDf.lookup k = none :=
      OrdMap.lookup_eq_none.mpr fun hc => OrdMap.lookup_eq_none.mp hl ((hp k).mpr hc)
    refine ⟨?_, fun c => ?_⟩
    · rintro _ ⟨⟩ c
      simp only [OrdMap.mem_insert, hp c]
    · by_cases hc : c = k
      · simp [classOf, hc, hk]
      · simp [classOf, hc, OrdMap.lookup_insert_ne hc]
  | some n =>
    obtain ⟨v, hk⟩ := OrdMap.mem_iff.mp ((hp k).mp (OrdMap.mem_iff.mpr ⟨n, hl⟩))
    refine ⟨?_, fun c => ?_⟩
    · rintro _ ⟨⟩ c
      simp only [OrdMap.mem_insert, hp c]
    · by_cases hc : c = k
      · simp [classOf, hc, hk]
      · simp [classOf, hc, OrdMap.lookup_insert_ne hc]

theorem Paired.countClasses {info : TermInfo} (h : Paired (some info)) (weight : Int32)
    (hnd : classTree.Nodup) :
    Paired (some (classTree.foldl (State.countClass weight) info)) ∧
      (classTree.foldl (State.countClass weight) info).totalClassItemDf = info.totalClassItemDf ∧
      ∀ c, classOf (some (classTree.foldl (State.countClass weight) info)) c =
        classOf (some info) c + if c ∈ classTree then 1 else 0 := by
  induction classTree generalizing info with
  | nil => exact ⟨h, rfl, by simp⟩
  | cons k classTree ih =>
    obtain ⟨hk, hnd⟩ := List.nodup_cons.mp hnd
    obtain ⟨hstep, hclass⟩ := h.countClass weight k
    obtain ⟨hp, ht, hc⟩ := ih hstep hnd
    refine ⟨hp, ht.trans (countClass_total info k), fun c => ?_⟩
    rw [List.foldl_cons, hc, hclass]
    by_cases hck : c = k
    · simp [hck, hk]
    · simp [hck]

theorem Paired.added {o : Option TermInfo} (h : Paired o) (term : List UInt8) (weight : Int32)
    (hnd : classTree.Nodup) :
    Paired (some (added classTree term weight o)) ∧
      totalOf (some (added classTree term weight o)) = totalOf o + 1 ∧
      ∀ c, classOf (some (added classTree term weight o)) c =
        classOf o c + if c ∈ classTree then 1 else 0 := by
  cases o with
  | none =>
    refine ⟨?_, rfl, fun c => ?_⟩
    · rintro _ ⟨⟩ c
      simp only [NBClassifier.added, State.newTerm, OrdMap.mem_iff, lookup_insertEach,
        OrdMap.lookup_empty]
      by_cases hc : c ∈ classTree
      · simp [hc]
      · simp [hc]
    · simp only [classOf, NBClassifier.added, State.newTerm, Option.bind_some, Option.bind_none,
        lookup_insertEach, OrdMap.lookup_empty]
      by_cases hc : c ∈ classTree
      · simp [hc]
      · simp [hc]
  | some info =>
    have h0 : Paired (some { info with
        df := info.df + weight
        totalClassItemDf := info.totalClassItemDf + 1 }) := by
      rintro _ ⟨⟩
      exact h info rfl
    obtain ⟨hp, ht, hc⟩ := h0.countClasses weight hnd
    exact ⟨hp, ht, hc⟩

end

-- ---------------------------------------------------------------------------
-- Items
-- ---------------------------------------------------------------------------

theorem trainDataNum_countAll {classes : List Int32} {m : ClassMap} (hnd : classes.Nodup)
    (hm : ∀ c ∈ classes, c ∈ m) :
    let n := classes.foldl
      (fun m c => m.modify c fun n => { n with trainDataNum := n.trainDataNum + 1 }) m
    links n = links m ∧ n.size = m.size ∧
      ∀ c, (ClassMap.node n c).trainDataNum =
        (ClassMap.node m c).trainDataNum + if c ∈ classes then 1 else 0 := by
  induction classes generalizing m with
  | nil => exact ⟨rfl, rfl, by simp⟩
  | cons k classes ih =>
    obtain ⟨hk, hnd⟩ := List.nodup_cons.mp hnd
    obtain ⟨hlinks, hsize, htrain⟩ :=
      ih (m := m.modify k fun n => { n with trainDataNum := n.trainDataNum + 1 }) hnd
        fun c hc => OrdMap.mem_modify.mpr (hm c (by simp [hc]))
    refine ⟨hlinks.trans (ClassMap.links_modify fun _ => ⟨rfl, rfl⟩),
      hsize.trans (OrdMap.size_modify _ _ _), fun c => ?_⟩
    rw [List.foldl_cons, htrain, ClassMap.node, OrdMap.lookup_modify]
    by_cases hc : c = k
    · subst hc
      obtain ⟨n, hn⟩ := OrdMap.mem_iff.mp (hm c (by simp))
      simp [hk, hn, ClassMap.node]
    · simp [hc, ClassMap.node]

def TrainItem.hasTerm (t : List UInt8) (item : TrainItem) : Bool := t ∈ item.terms

def TrainItem.hasClass (c : Int32) (item : TrainItem) : Bool := c ∈ item.classes

/-- The counters after some items are learnt whose terms are among `S`. -/
structure Counted (env : Env) (S : Set (List UInt8)) (s₀ s : State) (items : List TrainItem) :
    Prop where
  tree : SameTree s₀ s
  indexed : Indexed s
  terms : ∀ item ∈ items, ∀ t ∈ item.terms, t ∈ S
  hashes : ∀ hash, hash ∈ s.termHashMap ↔
    ∃ item ∈ items, ∃ t ∈ item.terms, env.hashlittle t = hash
  learning : s.totalLearningItemNum = Int32.ofNat items.length
  train : ∀ c, (s.node c).trainDataNum = Int32.ofNat (items.countP (TrainItem.hasClass c))
  paired : ∀ t ∈ S, Paired (s.info env t)
  total : ∀ t ∈ S, totalOf (s.info env t) = Int32.ofNat (items.countP (TrainItem.hasTerm t))
  cell : ∀ t ∈ S, ∀ c, classOf (s.info env t) c =
    Int32.ofNat (items.countP fun item => item.hasTerm t && item.hasClass c)

section
variable {env : Env} {S : Set (List UInt8)} {s₀ s : State} {items : List TrainItem}

theorem Untrained.counted (h : Untrained s) : Counted env S s s [] := by
  have hnone : ∀ t, s.info env t = none := fun t => by
    rw [State.info, h.hashes]
    rfl
  refine ⟨.refl s, h.indexed, by simp, fun hash => ?_, h.learning, h.train, fun t _ => ?_,
    fun t _ => ?_, fun t _ c => ?_⟩
  · rw [h.hashes]
    simp [AList.notMem_empty]
  · rw [hnone]
    rintro _ ⟨⟩
  · rw [hnone]
    rfl
  · rw [hnone]
    rfl

theorem ofNat_countP_append (p : TrainItem → Bool) (items : List TrainItem) (item : TrainItem) :
    Int32.ofNat ((items ++ [item]).countP p) =
      Int32.ofNat (items.countP p) + if p item then 1 else 0 := by
  rw [List.countP_append, Int32.ofNat_add]
  by_cases hp : p item = true
  · simp [hp]
  · simp [hp]

theorem Indexed.info_learn (h : Indexed s) (hinj : Set.InjOn env.hashlittle S) {item : TrainItem}
    (hterms : ∀ t ∈ item.terms, t ∈ S) {t : List UInt8} (ht : t ∈ S) :
    (t ∈ item.terms ∧ ∃ w, (s.learn env item).info env t =
        some (added item.classes t w (s.info env t))) ∨
      t ∉ item.terms ∧ (s.learn env item).info env t = s.info env t := by
  have hinfo : (s.learn env item).info env t =
      (item.terms.entries.foldl (State.addTerm env item.classes) s).info env t := rfl
  rw [hinfo, h.info_addTerms hinj (fun e he => hterms e.1 (List.mem_map_of_mem he))
    item.terms.nodup_keys ht]
  cases hf : item.terms.entries.find? fun e => e.1 = t with
  | none =>
    refine .inr ⟨fun hm => ?_, rfl⟩
    obtain ⟨w, hw⟩ := OrdMap.mem_iff.mp hm
    simpa using List.find?_eq_none.mp hf _ (OrdMap.mem_entries.mpr hw)
  | some e =>
    have he : e.1 = t := by simpa using List.find?_some hf
    exact .inl ⟨he ▸ List.mem_map_of_mem (List.mem_of_find?_eq_some hf), e.2, rfl⟩

theorem Counted.learn (h : Counted env S s₀ s items) (hinj : Set.InjOn env.hashlittle S)
    {item : TrainItem} (hterms : ∀ t ∈ item.terms, t ∈ S) (hnd : item.classes.Nodup)
    (hmem : ∀ c ∈ item.classes, c ∈ s.classNodeMap) :
    Counted env S s₀ (s.learn env item) (items ++ [item]) := by
  have hrest : SameRest s (s.addWord env item.terms item.classes) := sameRest_addTerms _
  obtain ⟨hlinks, hsize, htrain⟩ := trainDataNum_countAll hnd (m :=
    (s.addWord env item.terms item.classes).classNodeMap) fun c hc => by
      rw [← ClassMap.links_isSome, hrest.classes.links, ClassMap.links_isSome]
      exact hmem c hc
  have hrecord : ∀ t ∈ S, Paired ((s.learn env item).info env t) ∧
      (totalOf ((s.learn env item).info env t) =
        totalOf (s.info env t) + if item.hasTerm t then 1 else 0) ∧
      ∀ c, classOf ((s.learn env item).info env t) c =
        classOf (s.info env t) c + if item.hasTerm t && item.hasClass c then 1 else 0 := by
    intro t ht
    rcases h.indexed.info_learn hinj hterms ht with ⟨htm, w, he⟩ | ⟨htm, he⟩
    · obtain ⟨hp, htotal, hclass⟩ := (h.paired t ht).added t w hnd
      rw [he]
      refine ⟨hp, ?_, fun c => ?_⟩
      · simp [htotal, TrainItem.hasTerm, htm]
      · simp [hclass, TrainItem.hasTerm, TrainItem.hasClass, htm]
    · rw [he]
      exact ⟨h.paired t ht, by simp [TrainItem.hasTerm, htm], by simp [TrainItem.hasTerm, htm]⟩
  constructor
  · refine h.tree.trans ⟨hrest.names, hlinks.trans hrest.classes.links,
      hsize.trans hrest.classes.size⟩
  · have hi : Indexed (s.addWord env item.terms item.classes) := h.indexed.addTerms _
    exact ⟨hi.hashNum, hi.size, hi.range, hi.inj⟩
  · intro i hi
    rcases List.mem_append.mp hi with hi | hi
    · exact h.terms i hi
    · rw [List.mem_singleton.mp hi]
      exact hterms
  · intro hash
    have hadd : hash ∈ (s.learn env item).termHashMap ↔
        hash ∈ item.terms.entries.map (fun e => env.hashlittle e.1) ∨ hash ∈ s.termHashMap :=
      mem_addTerms
    have hkeys : hash ∈ item.terms.entries.map (fun e => env.hashlittle e.1) ↔
        ∃ t ∈ item.terms, env.hashlittle t = hash := by
      simp only [OrdMap.mem_def, OrdMap.keys, List.mem_map, exists_exists_and_eq_and]
    rw [hadd, hkeys, h.hashes]
    simp only [List.mem_append, List.mem_singleton, or_and_right, exists_or, exists_eq_left]
    exact or_comm
  · rw [List.length_append, List.length_singleton, Int32.ofNat_add, ← h.learning]
    exact congrArg (· + 1) hrest.learning
  · intro c
    rw [ofNat_countP_append, ← h.train c]
    refine (htrain c).trans ?_
    rw [hrest.classes.train c]
    simp [TrainItem.hasClass, State.node]
  · exact fun t ht => (hrecord t ht).1
  · intro t ht
    rw [ofNat_countP_append, ← h.total t ht]
    exact (hrecord t ht).2.1
  · intro t ht c
    rw [ofNat_countP_append, ← h.cell t ht c]
    exact (hrecord t ht).2.2 c

theorem sameTree_learn (hs : IsTree s.classNodeMap) {cfg : TrainConfig} {l : TrainLine}
    {item : TrainItem} (hi : s.trainItem env cfg l = some item) : SameTree s (s.learn env item) := by
  have hrest : SameRest s (s.addWord env item.terms item.classes) := sameRest_addTerms _
  obtain ⟨hnd, hmem⟩ := trainItem_classes hs hi
  obtain ⟨hlinks, hsize, -⟩ := trainDataNum_countAll hnd (m :=
    (s.addWord env item.terms item.classes).classNodeMap) fun c hc => by
      rw [← ClassMap.links_isSome, hrest.classes.links, ClassMap.links_isSome]
      exact hmem c hc
  exact ⟨hrest.names, hlinks.trans hrest.classes.links, hsize.trans hrest.classes.size⟩

/-- What a line adds does not depend on the lines before it. -/
theorem accepted_eq (hs : IsTree s.classNodeMap) (cfg : TrainConfig) (lines : List TrainLine) :
    s.accepted env cfg lines = lines.filterMap (s.trainItem env cfg) := by
  induction lines generalizing s with
  | nil => rfl
  | cons l lines ih =>
    rw [State.accepted, State.getNBFrmOriginalLine]
    cases hi : s.trainItem env cfg l with
    | none =>
      rw [List.filterMap_cons_none hi]
      exact ih hs
    | some item =>
      have hsame := sameTree_learn hs hi
      rw [List.filterMap_cons_some hi, ih (hsame.isTree hs)]
      simp only [hsame.trainItem, Option.toList_some, List.singleton_append]

theorem Counted.run (hs₀ : IsTree s₀.classNodeMap) (hinj : Set.InjOn env.hashlittle S)
    {cfg : TrainConfig} {lines : List TrainLine} (h : Counted env S s₀ s items)
    (hterms : ∀ item ∈ s.accepted env cfg lines, ∀ t ∈ item.terms, t ∈ S) :
    Counted env S s₀ (s.train env cfg lines) (items ++ s.accepted env cfg lines) := by
  induction lines generalizing s items with
  | nil => simpa [State.train, State.accepted] using h
  | cons l lines ih =>
    rw [State.train, List.foldl_cons, ← State.train]
    rw [State.accepted] at hterms ⊢
    cases hi : s.trainItem env cfg l with
    | none =>
      have hstep : s.getNBFrmOriginalLine env cfg l = (false, s) := by
        rw [State.getNBFrmOriginalLine, hi]
      rw [hi, hstep] at hterms
      rw [hstep]
      exact ih h hterms
    | some item =>
      have hstep : s.getNBFrmOriginalLine env cfg l = (true, s.learn env item) := by
        rw [State.getNBFrmOriginalLine, hi]
      rw [hi, hstep] at hterms
      rw [hstep, ← List.append_assoc]
      obtain ⟨hnd, hmem⟩ := trainItem_classes (h.tree.isTree hs₀) hi
      exact ih (h.learn hinj (hterms item (by simp)) hnd hmem) fun i hi => hterms i (by simp_all)

end

-- ---------------------------------------------------------------------------
-- Tables
-- ---------------------------------------------------------------------------

def distinctTerms (items : List TrainItem) : Finset (List UInt8) :=
  (items.flatMap fun item => item.terms.keys).toFinset

def itemTable (t : List UInt8) (c : Int32) (items : List TrainItem) : Contingency.Table :=
  Contingency.table (TrainItem.hasTerm t) (TrainItem.hasClass c) items

section
variable {env : Env} {S : Set (List UInt8)} {s₀ s : State} {items : List TrainItem}

theorem mem_distinctTerms {t : List UInt8} :
    t ∈ distinctTerms items ↔ ∃ item ∈ items, t ∈ item.terms := by
  simp only [distinctTerms, List.mem_toFinset, List.mem_flatMap, OrdMap.mem_def]

theorem toInt_ofNat_countP (p : TrainItem → Bool) (h : items.length < 2 ^ 31) :
    (Int32.ofNat (items.countP p)).toInt = items.countP p :=
  Int32.toInt_ofNat_of_lt (List.countP_le_length.trans_lt h)

theorem Counted.length_terms (h : Counted env S s₀ s items) (hinj : Set.InjOn env.hashlittle S) :
    s.mNBTerms.length = (distinctTerms items).card := by
  have hkeys : s.termHashMap.keys.toFinset = (distinctTerms items).image env.hashlittle := by
    ext hash
    rw [List.mem_toFinset, ← AList.mem_keys, h.hashes, Finset.mem_image]
    simp only [mem_distinctTerms]
    exact ⟨fun ⟨item, hi, t, ht, he⟩ => ⟨t, ⟨item, hi, ht⟩, he⟩,
      fun ⟨t, ⟨item, hi, ht⟩, he⟩ => ⟨item, hi, t, ht, he⟩⟩
  have hon : Set.InjOn env.hashlittle (distinctTerms items) := hinj.mono fun t ht => by
    obtain ⟨item, hi, ht⟩ := mem_distinctTerms.mp ht
    exact h.terms item hi t ht
  calc s.mNBTerms.length
    _ = s.termHashMap.keys.length := by
      rw [← h.indexed.size, HashMap.size, AList.keys, List.keys, List.length_map]
    _ = s.termHashMap.keys.toFinset.card := (List.toFinset_card_of_nodup s.termHashMap.keys_nodup).symm
    _ = (distinctTerms items).card := by rw [hkeys, Finset.card_image_of_injOn hon]

/-- Single precision holds the cells of up to `2 ^ 24` items. -/
theorem Counted.cells (h : Counted env S s₀ s items) (hlen : items.length ≤ 2 ^ 24)
    {t : List UInt8} (ht : t ∈ S) (c : Int32) {info : TermInfo} (hi : s.info env t = some info) :
    let table := itemTable t c items
    info.cells s.totalLearningItemNum (s.node c).trainDataNum c =
      ⟨items.length, table.n11, table.n10, table.n01, table.n00⟩ := by
  intro table
  have hlt : items.length < 2 ^ 31 := hlen.trans_lt (by decide)
  have hrow : table.n11 + table.n10 = items.countP (TrainItem.hasTerm t) :=
    Contingency.table_row _ _ _
  have hcolumn : table.n11 + table.n01 = items.countP (TrainItem.hasClass c) :=
    Contingency.table_column _ _ _
  have hsum : table.n11 + table.n10 + table.n01 + table.n00 = items.length :=
    Contingency.table_total _ _ _
  have hcell : ((info.classItemDf.lookup c).getD 0).toInt = table.n11 := by
    have hc := h.cell t ht c
    rw [hi] at hc
    exact (congrArg Int32.toInt hc).trans (toInt_ofNat_countP _ hlt)
  have htotal : info.totalClassItemDf.toInt = (table.n11 + table.n10 : Nat) := by
    have hc := h.total t ht
    rw [hi] at hc
    rw [hrow]
    exact (congrArg Int32.toInt hc).trans (toInt_ofNat_countP _ hlt)
  have htrain : (s.node c).trainDataNum.toInt = (table.n11 + table.n01 : Nat) := by
    rw [hcolumn, h.train c, toInt_ofNat_countP _ hlt]
  have hn : s.totalLearningItemNum.toInt = items.length := by
    rw [h.learning, Int32.toInt_ofNat_of_lt hlt]
  have hexact : ∀ z : Int, 0 ≤ z → z ≤ items.length → float z = z := fun z hz hz' =>
    float_of_le (by omega)
  simp only [TermInfo.cells, hcell, htotal, htrain, hn, Cells.mk.injEq]
  have h11 : float table.n11 = table.n11 := hexact _ (by omega) (by omega)
  have h1 : float (table.n11 + table.n10 : Nat) = (table.n11 + table.n10 : Nat) :=
    hexact _ (by omega) (by omega)
  have h2 : float (table.n11 + table.n01 : Nat) = (table.n11 + table.n01 : Nat) :=
    hexact _ (by omega) (by omega)
  have hN : float items.length = items.length := hexact _ (by omega) (by omega)
  have h10 : float ((table.n11 + table.n10 : Nat) - table.n11) = table.n10 := by
    rw [hexact _ (by omega) (by omega)]
    omega
  have h01 : float ((table.n11 + table.n01 : Nat) - table.n11) = table.n01 := by
    rw [hexact _ (by omega) (by omega)]
    omega
  rw [h11, h1, h2, hN, h10, h01]
  refine ⟨rfl, rfl, rfl, rfl, ?_⟩
  -- each difference is the number of items in the cells that are left
  rw [hexact (items.length - table.n01) (by omega) (by omega),
    hexact (items.length - table.n01 - table.n10) (by omega) (by omega),
    hexact _ (by omega) (by omega)]
  omega

/-- After any lines, the counters are those of the table of each term and class;
the cells are too, as long as single precision holds them. -/
theorem training_tables (env : Env) (cfg : TrainConfig) (tree : List TreeLine)
    (lines : List TrainLine) {S : Set (List UInt8)} (hinj : Set.InjOn env.hashlittle S) :
    ∃ s₀, loadClassTree env tree = some s₀ ∧
      let items := s₀.accepted env cfg lines
      let s := s₀.train env cfg lines
      (∀ item ∈ items, ∀ t ∈ item.terms, t ∈ S) → items.length < 2 ^ 31 →
      (distinctTerms items).card < 2 ^ 31 →
        (s.mNBTerms.length : Int) = s.totalTermHashNum.toInt ∧
        s.mNBTerms.length = (distinctTerms items).card ∧
        s.totalLearningItemNum.toInt = items.length ∧
        ∀ t ∈ S, ∀ c,
          let table := itemTable t c items
          (classOf (s.info env t) c).toInt = table.n11 ∧
          (totalOf (s.info env t)).toInt = items.countP (TrainItem.hasTerm t) ∧
          (s.node c).trainDataNum.toInt = items.countP (TrainItem.hasClass c) ∧
          table.n11 + table.n10 + table.n01 + table.n00 = items.length ∧
          (items.length ≤ 2 ^ 24 → ∀ info, s.info env t = some info →
            info.cells s.totalLearningItemNum (s.node c).trainDataNum c =
              ⟨items.length, table.n11, table.n10, table.n01, table.n00⟩) := by
  obtain ⟨s₀, hload, htree, huntrained⟩ := loadClassTree_spec env tree
  refine ⟨s₀, hload, fun hterms hlen hcard => ?_⟩
  have h : Counted env S s₀ (s₀.train env cfg lines) (s₀.accepted env cfg lines) :=
    huntrained.counted.run htree hinj hterms
  have hlength := h.length_terms hinj
  refine ⟨?_, hlength, ?_, fun t ht c => ⟨?_, ?_, ?_, Contingency.table_total _ _ _, ?_⟩⟩
  · rw [h.indexed.hashNum, Int32.toInt_ofNat_of_lt (hlength ▸ hcard)]
  · rw [h.learning, Int32.toInt_ofNat_of_lt hlen]
  · rw [h.cell t ht c]
    exact toInt_ofNat_countP _ hlen
  · rw [h.total t ht, toInt_ofNat_countP _ hlen]
  · rw [h.train c, toInt_ofNat_countP _ hlen]
  · exact fun hexact info hi => h.cells hexact ht c hi

end

-- ---------------------------------------------------------------------------
-- Equal lines
-- ---------------------------------------------------------------------------

/-- lookup3, libwb's split and no digits. -/
def plainEnv : Env where
  hashlittle := JenkinsHash.hashString
  spliteByChar line ch := (LibWb.SpliteByChar (2 ^ 32 - 1) line ch).getD []
  isDigit _ := false

def twoClassTree : List TreeLine :=
  [⟨text "1\t1\t0\tA\t5.", fun _ => 0⟩, ⟨text "2\t1\t0\tB\t5.", fun _ => 0⟩]

def wordLine : TrainLine := ⟨text "A.\tb\tc\td\te.", [text "word"], [], []⟩

def cakeLine : TrainLine := ⟨text "B.\tb\tc\td\te.", [text "cake", text "word"], [], []⟩

def plainConfig : TrainConfig := ⟨0, 0, 0⟩

theorem injOn_cake_word : Set.InjOn plainEnv.hashlittle {text "cake", text "word"} := by
  have hdiff : plainEnv.hashlittle (text "cake") ≠ plainEnv.hashlittle (text "word") := by
    decide +kernel
  rintro a (rfl | rfl) b (rfl | rfl) he
  · rfl
  · exact absurd he hdiff
  · exact absurd he.symm hdiff
  · rfl

theorem wordLine_item :
    ((loadClassTree plainEnv twoClassTree).bind fun s =>
      s.trainItem plainEnv plainConfig wordLine).map
        (fun item => (item.terms.entries, item.classes)) = some ([(text "word", 2)], [1]) := by
  decide +kernel

theorem cakeLine_item :
    ((loadClassTree plainEnv twoClassTree).bind fun s =>
      s.trainItem plainEnv plainConfig cakeLine).map
        (fun item => (item.terms.entries, item.classes)) =
      some ([(text "cake", 2), (text "word", 2)], [2]) := by
  decide +kernel

theorem wordLine_accepted {s₀ : State} (hload : loadClassTree plainEnv twoClassTree = some s₀) :
    ∃ item : TrainItem, (∀ t, t ∈ item.terms ↔ t = text "word") ∧ item.classes = [1] ∧
      s₀.trainItem plainEnv plainConfig wordLine = some item ∧
      ∀ n, s₀.accepted plainEnv plainConfig (List.replicate n wordLine) =
        List.replicate n item := by
  obtain ⟨s, hs, htree, -⟩ := loadClassTree_spec plainEnv twoClassTree
  obtain rfl : s₀ = s := Option.some.inj (hload.symm.trans hs)
  have hitem := wordLine_item
  rw [hload, Option.bind_some, Option.map_eq_some_iff] at hitem
  obtain ⟨item, hi, he⟩ := hitem
  obtain ⟨hterms, hclasses⟩ := Prod.mk.inj he
  refine ⟨item, fun t => ?_, hclasses, hi, fun n => ?_⟩
  · simp [OrdMap.mem_def, OrdMap.keys, hterms]
  · rw [accepted_eq htree, List.filterMap_replicate_of_some hi]

theorem training_tables_two_lines : ∃ s₀, loadClassTree plainEnv twoClassTree = some s₀ ∧
    let s := s₀.train plainEnv plainConfig [wordLine, cakeLine]
    s.mNBTerms.length = 2 ∧ s.totalLearningItemNum.toInt = 2 ∧
      (classOf (s.info plainEnv (text "word")) 2).toInt = 1 ∧
      (totalOf (s.info plainEnv (text "word"))).toInt = 2 ∧ (s.node 2).trainDataNum.toInt = 1 := by
  obtain ⟨s₀, hload, h⟩ :=
    training_tables plainEnv plainConfig twoClassTree [wordLine, cakeLine] injOn_cake_word
  obtain ⟨s, hs, htree, -⟩ := loadClassTree_spec plainEnv twoClassTree
  obtain rfl : s₀ = s := Option.some.inj (hload.symm.trans hs)
  obtain ⟨word, hword, hclass₁, hitem₁, -⟩ := wordLine_accepted hload
  have hitem₂ := cakeLine_item
  rw [hload, Option.bind_some, Option.map_eq_some_iff] at hitem₂
  obtain ⟨cake, hitem₂, he⟩ := hitem₂
  obtain ⟨hterms, hclass₂⟩ := Prod.mk.inj he
  have hcake : ∀ t, t ∈ cake.terms ↔ t = text "cake" ∨ t = text "word" := fun t => by
    simp [OrdMap.mem_def, OrdMap.keys, hterms]
  have haccepted : s₀.accepted plainEnv plainConfig [wordLine, cakeLine] = [word, cake] := by
    simp [accepted_eq htree, hitem₁, hitem₂]
  have hdistinct : distinctTerms [word, cake] = {text "cake", text "word"} := by
    ext t
    simp [mem_distinctTerms, hword, hcake]
    tauto
  have hcard : (distinctTerms [word, cake]).card = 2 := by
    rw [hdistinct]
    exact Finset.card_pair (by decide)
  rw [haccepted] at h
  obtain ⟨-, hlength, hlearning, htables⟩ := h (by simp [hword, hcake]) (by simp) (by simp [hcard])
  obtain ⟨hcell, htotal, htrain, -⟩ := htables (text "word") (by simp) 2
  refine ⟨s₀, hload, hlength.trans hcard, hlearning, hcell.trans ?_, htotal.trans ?_, htrain.trans ?_⟩
  · simp [itemTable, Contingency.table, TrainItem.hasTerm, TrainItem.hasClass, hword, hcake, hclass₁,
      hclass₂]
  · simp [TrainItem.hasTerm, hword, hcake]
  · simp [TrainItem.hasClass, hclass₁, hclass₂]

theorem equal_lines {n : Nat} (hpos : 0 < n) (hlt : n < 2 ^ 31) {s₀ : State}
    (hload : loadClassTree plainEnv twoClassTree = some s₀) :
    let lines := List.replicate n wordLine
    let items := s₀.accepted plainEnv plainConfig lines
    let s := s₀.train plainEnv plainConfig lines
    (∀ item ∈ items, ∀ t ∈ item.terms, t = text "word") ∧
    items.length = n ∧ (distinctTerms items).card = 1 ∧ s.totalLearningItemNum.toInt = n ∧
    ∃ info, s.info plainEnv (text "word") = some info ∧
      let f := float n
      info.cells s.totalLearningItemNum (s.node 1).trainDataNum 1 =
        ⟨f, f, float (f - f), float (f - f),
          float (float (float (f - float (f - f)) - float (f - f)) - f)⟩ := by
  intro lines items s
  obtain ⟨s', hs', htree, huntrained⟩ := loadClassTree_spec plainEnv twoClassTree
  obtain rfl : s₀ = s' := Option.some.inj (hload.symm.trans hs')
  obtain ⟨item, hterms, hclasses, -, haccepted⟩ := wordLine_accepted hload
  have hitems : items = List.replicate n item := haccepted n
  have hS : ∀ item ∈ items, ∀ t ∈ item.terms, t = text "word" := by
    intro i hi t ht
    rw [hitems] at hi
    rwa [List.eq_of_mem_replicate hi, hterms] at ht
  have h : Counted plainEnv {text "word"} s₀ s items :=
    huntrained.counted.run htree (Set.injOn_singleton _ _) hS
  have hlength : items.length = n := by rw [hitems, List.length_replicate]
  have hcard : distinctTerms items = {text "word"} := by
    ext t
    rw [mem_distinctTerms, hitems, Finset.mem_singleton]
    constructor
    · rintro ⟨i, hi, ht⟩
      rwa [List.eq_of_mem_replicate hi, hterms] at ht
    · exact fun ht => ⟨item, List.mem_replicate.mpr ⟨hpos.ne', rfl⟩, (hterms t).mpr ht⟩
  have hterm : item.hasTerm (text "word") = true := by simp [TrainItem.hasTerm, hterms]
  have hclass : item.hasClass 1 = true := by simp [TrainItem.hasClass, hclasses]
  have hcount : ∀ p : TrainItem → Bool, p item = true → Int32.ofNat (items.countP p) = Int32.ofNat n :=
    fun p hp => by rw [hitems, List.countP_replicate, if_pos hp]
  have htotal := (h.total (text "word") rfl).trans (hcount _ hterm)
  have hcell := (h.cell (text "word") rfl 1).trans (hcount _ (by rw [hterm, hclass]; rfl))
  have htrain := (h.train 1).trans (hcount _ hclass)
  have hlearning : s.totalLearningItemNum = Int32.ofNat n := h.learning.trans (by rw [hlength])
  have hn : (Int32.ofNat n).toInt = n := Int32.toInt_ofNat_of_lt hlt
  obtain ⟨info, hinfo⟩ : ∃ info, s.info plainEnv (text "word") = some info := by
    cases hi : s.info plainEnv (text "word") with
    | none =>
      rw [hi] at htotal
      have h0 : (0 : Int) = n := (congrArg Int32.toInt htotal).trans hn
      omega
    | some info => exact ⟨info, rfl⟩
  rw [hinfo] at htotal hcell
  have hc : (info.classItemDf.lookup 1).getD 0 = Int32.ofNat n := hcell
  have ht : info.totalClassItemDf = Int32.ofNat n := htotal
  refine ⟨hS, hlength, by rw [hcard, Finset.card_singleton], by rw [hlearning, hn], info, hinfo, ?_⟩
  simp only [TermInfo.cells, hc, ht, htrain, hlearning, hn]

/-- One line more than single precision can count: the cells lose an item. -/
theorem cells_lose_item : ∃ s₀, loadClassTree plainEnv twoClassTree = some s₀ ∧
    ∃ lines : List TrainLine,
      let items := s₀.accepted plainEnv plainConfig lines
      let s := s₀.train plainEnv plainConfig lines
      (∀ item ∈ items, ∀ t ∈ item.terms, t = text "word") ∧
      items.length = 2 ^ 24 + 1 ∧ (distinctTerms items).card = 1 ∧
      s.totalLearningItemNum.toInt = 2 ^ 24 + 1 ∧
      ∃ info, s.info plainEnv (text "word") = some info ∧
        let cells := info.cells s.totalLearningItemNum (s.node 1).trainDataNum 1
        cells.n11 + cells.n10 + cells.n01 + cells.n00 = 2 ^ 24 := by
  obtain ⟨s₀, hload, -⟩ := loadClassTree_spec plainEnv twoClassTree
  have hfloat : float (2 ^ 24 + 1 : Nat) = 2 ^ 24 := by decide +kernel
  have h := fun n hpos hlt => equal_lines (n := n) hpos hlt hload
  obtain ⟨n, hn⟩ : ∃ n, n = 2 ^ 24 + 1 := ⟨_, rfl⟩
  obtain ⟨hS, hlength, hcard, hlearning, info, hinfo, hcells⟩ := h n (by omega) (by omega)
  refine ⟨s₀, hload, List.replicate n wordLine, hS, hlength.trans hn, hcard, ?_, info, hinfo, ?_⟩
  · rw [hlearning, hn]
    norm_num
  · rw [hcells, hn, hfloat]
    decide +kernel

end TextMining.NBClassifier
