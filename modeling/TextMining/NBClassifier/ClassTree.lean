import TextMining.Lib.Forest
import TextMining.NBClassifier.Model

/-!
# The loaded class tree

`LoadClassTree` accepts a class once its father is there, so the classes grow
a tree and the walk of every leaf to the root ends.
-/

namespace TextMining.NBClassifier

open Forest (Links)

def ClassMap.links (m : ClassMap) : Links Int32 := fun c =>
  (m.lookup c).map fun n => (n.fatherId, n.sons)

def ClassMap.IsTree (m : ClassMap) : Prop :=
  ∃ depth, Forest.Tree 0 (ClassMap.links m) m.size depth

namespace ClassMap

variable {m : ClassMap} {c : Int32}

theorem links_eq_some {f : Int32} {sons : List Int32} :
    links m c = some (f, sons) ↔ ∃ n, m.lookup c = some n ∧ n.fatherId = f ∧ n.sons = sons := by
  simp only [links, Option.map_eq_some_iff, Prod.mk.injEq]

theorem links_isSome : (∃ l, links m c = some l) ↔ c ∈ m := Forest.linksOf_isSome

theorem node_of_lookup {n : ClassNode} (h : m.lookup c = some n) : node m c = n := by
  rw [node, h, Option.getD_some]

theorem links_modify {f : ClassNode → ClassNode}
    (hf : ∀ n, (f n).fatherId = n.fatherId ∧ (f n).sons = n.sons) :
    links (m.modify c f) = links m :=
  Forest.linksOf_modify fun n => Prod.ext (hf n).1 (hf n).2

theorem IsTree.congr {n : ClassMap} (h : IsTree m) (hl : links n = links m) (hs : n.size = m.size) :
    IsTree n := by
  rw [IsTree, hl, hs]
  exact h

end ClassMap

open ClassMap (links IsTree)

-- ---------------------------------------------------------------------------
-- Rows
-- ---------------------------------------------------------------------------

section
variable {s : State} {row : ClassRow}

theorem links_loadRow (hc : row.classId ∉ s.classNodeMap) (hf : row.fatherId ∈ s.classNodeMap) :
    links (s.loadRow row).classNodeMap =
        Forest.addLeaf (links s.classNodeMap) row.classId row.fatherId ∧
      (s.loadRow row).classNodeMap.size = s.classNodeMap.size + 1 := by
  rw [State.loadRow, if_neg hc, if_neg (not_not.mpr hf)]
  refine ⟨?_, by rw [OrdMap.size_modify, OrdMap.size_insert hc]⟩
  refine Forest.linksOf_addLeaf (fun n => (n.fatherId, n.sons)) hc hf ?_ ?_
  · rfl
  · exact fun _ => rfl

theorem State.loadRow_cases (s : State) (row : ClassRow) :
    s.loadRow row = s ∨ (row.classId ∉ s.classNodeMap ∧ row.fatherId ∈ s.classNodeMap) := by
  by_cases hc : row.classId ∈ s.classNodeMap
  · exact .inl (if_pos hc)
  · by_cases hf : row.fatherId ∈ s.classNodeMap
    · exact .inr ⟨hc, hf⟩
    · rw [State.loadRow, if_neg hc, if_pos hf]
      exact .inl rfl

theorem isTree_loadRow (h : IsTree s.classNodeMap) (row : ClassRow) :
    IsTree (s.loadRow row).classNodeMap := by
  rcases s.loadRow_cases row with he | ⟨hc, hf⟩
  · rw [he]
    exact h
  · obtain ⟨depth, ht⟩ := h
    rw [IsTree, (links_loadRow hc hf).2, State.loadRow, if_neg hc, if_neg (not_not.mpr hf)]
    refine ⟨_, ht.insertLeaf (fun n => (n.fatherId, n.sons)) hc hf ?_ ?_⟩
    · rfl
    · exact fun _ => rfl

theorem isTree_init : IsTree State.init.classNodeMap := by
  have hl : ∀ c, links State.init.classNodeMap c = if c = 0 then some (-1, []) else none := by
    intro c
    rw [links, State.init, OrdMap.lookup_insert]
    by_cases hc : c = 0
    · simp [hc, ClassNode.new]
    · simp [hc]
  exact ⟨_, Forest.tree_single (by rw [hl, if_pos rfl]) fun c hc => by rw [hl, if_neg hc]⟩

structure Untrained (s : State) : Prop where
  hashes : s.termHashMap = ∅
  terms : s.mNBTerms = []
  learning : s.totalLearningItemNum = 0
  hashNum : s.totalTermHashNum = 0
  train : ∀ c, (s.node c).trainDataNum = 0

theorem trainDataNum_modify {m : ClassMap} {c : Int32} {f : ClassNode → ClassNode}
    (hf : ∀ n, (f n).trainDataNum = n.trainDataNum) (k : Int32) :
    (ClassMap.node (m.modify c f) k).trainDataNum = (ClassMap.node m k).trainDataNum := by
  rw [ClassMap.node, OrdMap.lookup_modify, ClassMap.node]
  by_cases hk : k = c
  · rw [if_pos hk, hk]
    cases m.lookup c with
    | none => rfl
    | some n => exact hf n
  · rw [if_neg hk]

theorem untrained_init : Untrained State.init := by
  refine ⟨rfl, rfl, rfl, rfl, fun c => ?_⟩
  rw [State.node, ClassMap.node, State.init, OrdMap.lookup_insert]
  split <;> rfl

theorem Untrained.loadRow (h : Untrained s) (row : ClassRow) : Untrained (s.loadRow row) := by
  rcases s.loadRow_cases row with he | ⟨hc, hf⟩
  · rw [he]
    exact h
  · rw [State.loadRow, if_neg hc, if_neg (not_not.mpr hf)]
    refine ⟨h.hashes, h.terms, h.learning, h.hashNum, fun c => ?_⟩
    have hc' := h.train c
    rw [State.node, ClassMap.node] at hc'
    refine (trainDataNum_modify ?_ c).trans ?_
    · exact fun _ => rfl
    · rw [ClassMap.node, OrdMap.lookup_insert]
      split
      · rfl
      · exact hc'

end

-- ---------------------------------------------------------------------------
-- Leaves
-- ---------------------------------------------------------------------------

structure SameClasses (m n : ClassMap) : Prop where
  links : links n = links m
  size : n.size = m.size
  train : ∀ c, (ClassMap.node n c).trainDataNum = (ClassMap.node m c).trainDataNum

theorem SameClasses.refl (m : ClassMap) : SameClasses m m := ⟨rfl, rfl, fun _ => rfl⟩

theorem SameClasses.trans {m n k : ClassMap} (h : SameClasses m n) (h' : SameClasses n k) :
    SameClasses m k :=
  ⟨h'.links.trans h.links, h'.size.trans h.size, fun c => (h'.train c).trans (h.train c)⟩

theorem leafLoop_spec {depth : Int32 → Nat} {m : ClassMap}
    (ht : Forest.Tree 0 (links m) m.size depth) {fuel : Nat} {c : Int32} (hc : c ∈ m)
    (hfuel : depth c < fuel) : ∃ n, leafLoop fuel c m = some n ∧ SameClasses m n := by
  induction fuel generalizing m c with
  | zero => exact absurd hfuel (Nat.not_lt_zero _)
  | succ fuel ih =>
    unfold leafLoop
    by_cases hpos : 0 < c
    · have hne : c ≠ 0 := by
        rintro rfl
        exact absurd hpos (by decide)
      obtain ⟨n, hn⟩ := OrdMap.mem_iff.mp hc
      obtain ⟨hfm, hd⟩ := ht.father c _ _ (ClassMap.links_eq_some.mpr ⟨n, hn, rfl, rfl⟩) hne
      have hstep : SameClasses m (m.modify c fun n => { n with leafNum := n.leafNum + 1 }) :=
        ⟨ClassMap.links_modify fun _ => ⟨rfl, rfl⟩, OrdMap.size_modify m c _,
          trainDataNum_modify fun _ => rfl⟩
      have hnode : (ClassMap.node (m.modify c fun n => { n with leafNum := n.leafNum + 1 }) c).fatherId =
          n.fatherId := by
        rw [ClassMap.node, OrdMap.lookup_modify, if_pos rfl, hn]
        rfl
      obtain ⟨k, hk, hsame⟩ := ih (hstep.links ▸ hstep.size ▸ ht)
        (OrdMap.mem_modify.mpr (ClassMap.links_isSome.mp hfm)) (by omega)
      refine ⟨k, ?_, hstep.trans hsame⟩
      simp only [if_pos hpos, hnode]
      exact hk
    · exact ⟨m, if_neg hpos, .refl m⟩

theorem countLeaves_spec {m : ClassMap} (h : IsTree m) :
    ∃ n, countLeaves m = some n ∧ SameClasses m n := by
  obtain ⟨depth, ht⟩ := h
  have hrun : ∀ (es : List (Int32 × ClassNode)), (∀ e ∈ es, e ∈ m.entries) → ∀ n, SameClasses m n →
      ∃ k, es.foldlM (fun n e => if e.2.sons = [] then leafLoop m.size e.1 n else some n) n = some k ∧
        SameClasses m k := by
    intro es
    induction es with
    | nil => exact fun _ n hn => ⟨n, rfl, hn⟩
    | cons e es ih =>
      intro hes n hn
      have hlookup : m.lookup e.1 = some e.2 := OrdMap.mem_entries.mp (hes e (by simp))
      have hmem : e.1 ∈ n := by
        rw [← ClassMap.links_isSome, hn.links, ClassMap.links_isSome]
        exact OrdMap.mem_iff.mpr ⟨_, hlookup⟩
      have hbound : depth e.1 < m.size :=
        ht.bound _ _ (ClassMap.links_eq_some.mpr ⟨_, hlookup, rfl, rfl⟩)
      rw [List.foldlM_cons]
      split
      · obtain ⟨n', hn', hsame⟩ := leafLoop_spec (hn.links ▸ hn.size ▸ ht) hmem hbound
        rw [hn']
        exact ih (fun e he => hes e (by simp [he])) n' (hn.trans hsame)
      · exact ih (fun e he => hes e (by simp [he])) n hn
  exact hrun m.entries (fun _ he => he) m (.refl m)

theorem isTree_foldl_loadRow {s : State} (hs : IsTree s.classNodeMap) (rows : List ClassRow) :
    IsTree (rows.foldl State.loadRow s).classNodeMap := by
  induction rows generalizing s with
  | nil => exact hs
  | cons row rows ih => exact ih (isTree_loadRow hs row)

theorem Untrained.foldl_loadRow {s : State} (hu : Untrained s) (rows : List ClassRow) :
    Untrained (rows.foldl State.loadRow s) := by
  induction rows generalizing s with
  | nil => exact hu
  | cons row rows ih => exact ih (hu.loadRow row)

/-- The loader always succeeds; it leaves a tree and nothing learnt. -/
theorem loadClassTree_spec (env : Env) (lines : List TreeLine) :
    ∃ s, loadClassTree env lines = some s ∧ IsTree s.classNodeMap ∧ Untrained s := by
  have hs := isTree_foldl_loadRow isTree_init (lines.filterMap (TreeLine.row env))
  have hu := untrained_init.foldl_loadRow (lines.filterMap (TreeLine.row env))
  obtain ⟨m, hm, hsame⟩ := countLeaves_spec hs
  refine ⟨_, by rw [loadClassTree, hm, Option.map_some], hs.congr hsame.links hsame.size, ?_⟩
  exact ⟨hu.hashes, hu.terms, hu.learning, hu.hashNum, fun c => (hsame.train c).trans (hu.train c)⟩

end TextMining.NBClassifier
