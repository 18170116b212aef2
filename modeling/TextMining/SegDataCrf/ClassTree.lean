import TextMining.BfdClassTree.Tags

/-!
# The class tree of the CRF segmenter

The copy of `BfdClassTree` that reads no tags. `BfdClassTree_Init` creates the
root as the other copy does but never puts it into `ClassNodeMap`.
-/

namespace TextMining.SegDataCrf

open NBClassifier (Env TreeLine ClassRow)

structure ClassNode where
  level : Int32
  id : Int32
  fatherId : Int32
  foreignId : Int32
  termNum : Int32
  trainDataNum : Int32
  leafNum : Int32
  sonMaxTrainDataNum : Int32
  sons : List Int32

def ClassNode.new (id level fatherId foreignId : Int32) : ClassNode :=
  ⟨level, id, fatherId, foreignId, 0, 0, 0, 0, []⟩

def ClassNode.link (n : ClassNode) : Int32 × List Int32 := (n.fatherId, n.sons)

abbrev ClassMap := OrdMap Int32 ClassNode

structure State where
  classRoot : ClassNode
  classNameMap : OrdMap Int32 (List UInt8)
  classNodeMap : ClassMap

def State.init : State where
  classRoot := .new 0 0 (-1) 0
  classNameMap := .empty
  classNodeMap := .empty

def State.loadRow (s : State) (row : ClassRow) : State :=
  if row.classId ∈ s.classNodeMap then s
  else if row.fatherId ∉ s.classNodeMap then s
  else
    { s with
      classNameMap := s.classNameMap.insert row.classId row.name
      classNodeMap := (s.classNodeMap.insert row.classId
        (.new row.classId row.level row.fatherId row.foreignId)).modify row.fatherId fun n =>
          { n with sons := n.sons ++ [row.classId] } }

def leafLoop (fuel : Nat) (father : Int32) (m : ClassMap) : Option ClassMap :=
  Forest.climb ClassNode.link BfdClassTree.above (fun n => { n with leafNum := n.leafNum + 1 })
    fuel father m

def countLeaves (m : ClassMap) : Option ClassMap :=
  m.entries.foldlM (fun n e => if e.2.sons = [] then leafLoop m.size e.1 n else some n) m

def loadClassTree (env : Env) (lines : List TreeLine) : Option State :=
  let s := (lines.filterMap (TreeLine.row env)).foldl State.loadRow State.init
  (countLeaves s.classNodeMap).map fun m => { s with classNodeMap := m }

-- ---------------------------------------------------------------------------
-- No class is accepted
-- ---------------------------------------------------------------------------

theorem loadRow_of_empty {s : State} (h : s.classNodeMap = .empty) (row : ClassRow) :
    s.loadRow row = s := by
  have hnone : ∀ c, c ∉ s.classNodeMap := by
    intro c hc
    rw [h] at hc
    exact List.not_mem_nil (OrdMap.mem_def.mp hc)
  rw [State.loadRow, if_neg (hnone _), if_pos (hnone _)]

theorem loadClassTree_init (env : Env) (lines : List TreeLine) :
    loadClassTree env lines = some State.init := by
  have hrows : ∀ rows : List ClassRow, rows.foldl State.loadRow State.init = State.init := by
    intro rows
    induction rows with
    | nil => rfl
    | cons row rows ih => rw [List.foldl_cons, loadRow_of_empty rfl, ih]
  rw [loadClassTree, hrows]
  rfl

-- ---------------------------------------------------------------------------
-- The other copy
-- ---------------------------------------------------------------------------

structure ClassView where
  link : Int32 × List Int32
  leafNum : Int32

def ClassNode.view (n : ClassNode) : ClassView := ⟨n.link, n.leafNum⟩

def bfdView (n : BfdClassTree.ClassNode) : ClassView := ⟨n.link, n.leafNum⟩

/-- The same classes below the root, with the same links and leaf numbers. -/
def Agree (s : State) (t : BfdClassTree.State) : Prop :=
  ∀ c, c ≠ 0 → (s.classNodeMap.lookup c).map ClassNode.view = (t.classNodeMap.lookup c).map bfdView

section
variable {s : BfdClassTree.State} {row : ClassRow}

theorem mem_loadRow {c : Int32} : c ∈ (s.loadRow row).classNodeMap ↔
    c ∈ s.classNodeMap ∨ (c = row.classId ∧ row.fatherId ∈ s.classNodeMap) := by
  rw [BfdClassTree.State.loadRow]
  split
  · rename_i hc
    rw [or_iff_left_of_imp]
    rintro ⟨rfl, -⟩
    exact hc
  · split
    · rename_i hf
      simp only [hf, and_false, or_false]
    · rename_i hf
      rw [OrdMap.mem_modify, OrdMap.mem_insert, or_comm]
      simp only [not_not.mp hf, and_true]

theorem exists_mem_foldl {rows : List ClassRow} (h0 : 0 ∈ s.classNodeMap) :
    (∃ c ∈ (rows.foldl BfdClassTree.State.loadRow s).classNodeMap, c ≠ 0) ↔
      (∃ c ∈ s.classNodeMap, c ≠ 0) ∨ ∃ row ∈ rows, row.fatherId = 0 ∧ row.classId ≠ 0 := by
  induction rows generalizing s with
  | nil => simp only [List.foldl_nil, List.not_mem_nil, false_and, exists_false, or_false]
  | cons row rows ih =>
    rw [List.foldl_cons, ih (mem_loadRow.mpr (.inl h0))]
    constructor
    · rintro (⟨c, hc, hne⟩ | ⟨later, hin, hlater⟩)
      · rcases mem_loadRow.mp hc with hc | ⟨rfl, hf⟩
        · exact .inl ⟨c, hc, hne⟩
        · by_cases hroot : row.fatherId = 0
          · exact .inr ⟨row, List.mem_cons_self, hroot, hne⟩
          · exact .inl ⟨row.fatherId, hf, hroot⟩
      · exact .inr ⟨later, List.mem_cons_of_mem _ hin, hlater⟩
    · rintro (⟨c, hc, hne⟩ | ⟨later, hin, hroot, hne⟩)
      · exact .inl ⟨c, mem_loadRow.mpr (.inl hc), hne⟩
      · rcases List.mem_cons.mp hin with rfl | hin
        · exact .inl ⟨_, mem_loadRow.mpr (.inr ⟨rfl, hroot ▸ h0⟩), hne⟩
        · exact .inr ⟨later, hin, hroot, hne⟩

end

theorem bfd_loadClassTree_mem (env : Env) (lines : List TreeLine) :
    ∃ t, BfdClassTree.loadClassTree env lines = some t ∧ ∀ c, c ∈ t.classNodeMap ↔
      c ∈ ((lines.filterMap (TreeLine.row env)).foldl BfdClassTree.State.loadRow
        BfdClassTree.State.init).classNodeMap := by
  obtain ⟨m, hm, hsame⟩ :=
    (BfdClassTree.fresh_init.foldl_loadRow (lines.filterMap (TreeLine.row env))).countLeaves
  exact ⟨_, by rw [BfdClassTree.loadClassTree, hm, Option.map_some],
    fun c => Forest.mem_of_linksOf hsame.links⟩

/-- The two copies agree on the files without a class below the root. -/
theorem agree_iff (env : Env) (lines : List TreeLine) :
    ∃ s t, loadClassTree env lines = some s ∧ BfdClassTree.loadClassTree env lines = some t ∧
      (Agree s t ↔ ∀ row ∈ lines.filterMap (TreeLine.row env), row.fatherId = 0 →
        row.classId = 0) := by
  obtain ⟨t, ht, hmem⟩ := bfd_loadClassTree_mem env lines
  refine ⟨State.init, t, loadClassTree_init env lines, ht, ?_⟩
  have hagree : Agree State.init t ↔ ¬ ∃ c ∈ t.classNodeMap, c ≠ 0 := by
    constructor
    · rintro h ⟨c, hc, hne⟩
      obtain ⟨n, hn⟩ := OrdMap.mem_iff.mp hc
      have hc' := h c hne
      rw [hn] at hc'
      cases hc'
    · intro h c hne
      rw [OrdMap.lookup_eq_none.mpr fun hc => h ⟨c, hc, hne⟩]
      rfl
  have hinit : ¬ ∃ c ∈ BfdClassTree.State.init.classNodeMap, c ≠ 0 := by
    rintro ⟨c, hc, hne⟩
    rw [BfdClassTree.State.init, OrdMap.mem_insert] at hc
    rcases hc with hc | hc
    · exact hne hc
    · exact List.not_mem_nil (OrdMap.mem_def.mp hc)
  simp only [hagree, hmem, exists_mem_foldl BfdClassTree.fresh_init.root_mem, hinit, false_or,
    not_exists, not_and, not_not]

/-- A class below the root is accepted by one copy only. -/
theorem not_agree_food : ¬ ∃ s t,
    loadClassTree BfdClassTree.splitEnv BfdClassTree.foodTree = some s ∧
      BfdClassTree.loadClassTree BfdClassTree.splitEnv BfdClassTree.foodTree = some t ∧
      Agree s t := by
  rintro ⟨s, t, hs, ht, hagree⟩
  have hfood : (BfdClassTree.loadClassTree BfdClassTree.splitEnv BfdClassTree.foodTree).map
      (fun t => (t.classNodeMap.lookup 3).isSome) = some true := by decide +kernel
  have hnone : (loadClassTree BfdClassTree.splitEnv BfdClassTree.foodTree).map
      (fun s => (s.classNodeMap.lookup 3).isSome) = some false := by decide +kernel
  rw [ht] at hfood
  rw [hs] at hnone
  have h3 := congrArg Option.isSome (hagree 3 (by decide))
  rw [Option.isSome_map, Option.isSome_map] at h3
  exact Bool.false_ne_true ((Option.some.inj hnone).symm.trans (h3.trans (Option.some.inj hfood)))

end TextMining.SegDataCrf
