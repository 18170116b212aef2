import TextMining.BfdClassTree.Model

/-!
# The loaded classes

`LoadClassTree` always ends and leaves a tree of classes without tags below
the root 0, whose own father is -1.
-/

namespace TextMining.BfdClassTree

open NBClassifier (Env TreeLine ClassRow)
open Forest (linksOf)

structure Fresh (m : ClassMap) : Prop where
  tree : ∃ depth, Forest.Tree 0 (linksOf ClassNode.link m) m.size depth
  top : ∀ n, m.lookup 0 = some n → n.fatherId = -1
  bare : ∀ c n, m.lookup c = some n → n.hashTags = .empty ∧ n.tagMapAC = .empty

section
variable {m n : ClassMap} {c : Int32}

theorem fresh_init : Fresh State.init.classNodeMap := by
  have hlookup : ∀ c, State.init.classNodeMap.lookup c =
      if c = 0 then some (ClassNode.new 0 0 (-1) 0) else none := by
    intro c
    rw [State.init, OrdMap.lookup_insert]
    split <;> rfl
  refine ⟨⟨_, Forest.tree_single (p := -1) ?_ fun c hc => ?_⟩, fun n hn => ?_, fun c n hn => ?_⟩
  · rw [linksOf, hlookup, if_pos rfl]
    rfl
  · rw [linksOf, hlookup, if_neg hc, Option.map_none]
  · rw [hlookup, if_pos rfl] at hn
    cases hn
    rfl
  · rw [hlookup] at hn
    split at hn
    · cases hn
      exact ⟨rfl, rfl⟩
    · cases hn

theorem Fresh.root_mem (h : Fresh m) : 0 ∈ m := by
  obtain ⟨depth, ht⟩ := h.tree
  obtain ⟨p, ss, hroot⟩ := ht.top
  exact Forest.linksOf_isSome.mp ⟨_, hroot⟩

theorem Fresh.loadRow {s : State} (h : Fresh s.classNodeMap) (row : ClassRow) :
    Fresh (s.loadRow row).classNodeMap := by
  rw [State.loadRow]
  split
  · exact h
  · split
    · exact h
    · rename_i hc hf
      have hf := not_not.mp hf
      have hroot : (0 : Int32) ≠ row.classId := fun he => hc (he ▸ h.root_mem)
      obtain ⟨depth, ht⟩ := h.tree
      refine ⟨⟨Function.update depth row.classId (depth row.fatherId + 1), ?_⟩, fun n hn => ?_,
        fun c n hn => ?_⟩
      · rw [OrdMap.size_modify, OrdMap.size_insert hc]
        refine ht.insertLeaf ClassNode.link hc hf ?_ ?_
        · rfl
        · exact fun _ => rfl
      · rcases Forest.lookup_insertLeaf hc hf hn with ⟨he, -⟩ | ⟨old, hold, rfl | rfl⟩
        · exact absurd he hroot
        · exact h.top n hold
        · exact h.top old hold
      · rcases Forest.lookup_insertLeaf hc hf hn with ⟨-, rfl⟩ | ⟨old, hold, rfl | rfl⟩
        · exact ⟨rfl, rfl⟩
        · exact h.bare c n hold
        · exact h.bare c old hold

theorem Fresh.foldl_loadRow {s : State} (h : Fresh s.classNodeMap) (rows : List ClassRow) :
    Fresh (rows.foldl State.loadRow s).classNodeMap := by
  induction rows generalizing s with
  | nil => exact h
  | cons row rows ih => exact ih (h.loadRow row)

structure Recounted (m n : ClassMap) : Prop where
  fresh : Fresh n
  links : linksOf ClassNode.link n = linksOf ClassNode.link m
  size : n.size = m.size

theorem Fresh.recounted (h : Fresh m) {f : ClassNode → ClassNode}
    (hf : ∀ n, (f n).link = n.link ∧ (f n).hashTags = n.hashTags ∧ (f n).tagMapAC = n.tagMapAC)
    (hm : ∀ k, n.lookup k = m.lookup k ∨ n.lookup k = (m.lookup k).map f) : Recounted m n := by
  have hlinks : linksOf ClassNode.link n = linksOf ClassNode.link m := by
    funext k
    rw [linksOf, linksOf]
    rcases hm k with hk | hk
    · rw [hk]
    · rw [hk, Option.map_map]
      exact congrArg (Option.map · _) (funext fun n => (hf n).1)
  have hsize : n.size = m.size := OrdMap.size_congr (OrdMap.mem_of_lookup_map hm)
  have hold : ∀ k a, n.lookup k = some a → ∃ b, m.lookup k = some b ∧ a.link = b.link ∧
      a.hashTags = b.hashTags ∧ a.tagMapAC = b.tagMapAC := by
    intro k a ha
    rcases hm k with hk | hk
    · exact ⟨a, hk ▸ ha, rfl, rfl, rfl⟩
    · rw [hk] at ha
      obtain ⟨b, hb, rfl⟩ := Option.map_eq_some_iff.mp ha
      exact ⟨b, hb, hf b⟩
  refine ⟨⟨by rw [hlinks, hsize]; exact h.tree, fun a ha => ?_, fun k a ha => ?_⟩, hlinks, hsize⟩
  · obtain ⟨b, hb, hlink, -⟩ := hold 0 a ha
    exact (congrArg Prod.fst hlink).trans (h.top b hb)
  · obtain ⟨b, hb, -, hhash, htags⟩ := hold k a ha
    exact ⟨hhash.trans (h.bare k b hb).1, htags.trans (h.bare k b hb).2⟩

theorem Fresh.leafLoop (h : Fresh m) (hc : c ∈ m) :
    ∃ n, leafLoop m.size c m = some n ∧ Recounted m n := by
  obtain ⟨depth, ht⟩ := h.tree
  obtain ⟨l, hl⟩ := Forest.linksOf_isSome.mpr hc
  obtain ⟨n, hn, hlookup⟩ : ∃ n, BfdClassTree.leafLoop m.size c m = some n ∧ ∀ k, n.lookup k =
      if k ∈ Forest.path above (linksOf ClassNode.link m) m.size c then
        (m.lookup k).map fun n => { n with leafNum := n.leafNum + 1 }
      else m.lookup k := ht.climb rfl (fun _ => rfl) fun _ => ⟨hc, ht.bound c l hl⟩
  refine ⟨n, hn, h.recounted (f := fun n => { n with leafNum := n.leafNum + 1 })
    (fun _ => ⟨rfl, rfl, rfl⟩) fun k => ?_⟩
  rw [hlookup]
  split
  · exact .inr rfl
  · exact .inl rfl

theorem Fresh.countLeaves (h : Fresh m) : ∃ n, countLeaves m = some n ∧ Recounted m n := by
  have hrun : ∀ es : List (Int32 × ClassNode), (∀ e ∈ es, e.1 ∈ m) → ∀ n, Recounted m n →
      ∃ k, es.foldlM (fun n e =>
        if e.2.sons = [] then BfdClassTree.leafLoop m.size e.1 n else some n) n = some k ∧
        Recounted m k := by
    intro es
    induction es with
    | nil => exact fun _ n hn => ⟨n, rfl, hn⟩
    | cons e es ih =>
      intro hes n hn
      have hrest := ih fun x hx => hes x (List.mem_cons_of_mem _ hx)
      rw [List.foldlM_cons]
      split
      · have hmem : e.1 ∈ n := (Forest.mem_of_linksOf hn.links).mpr (hes e List.mem_cons_self)
        obtain ⟨k, hk, hsame⟩ := hn.fresh.leafLoop hmem
        rw [hn.size] at hk
        rw [hk]
        exact hrest k ⟨hsame.fresh, hsame.links.trans hn.links, hsame.size.trans hn.size⟩
      · exact hrest n hn
  exact hrun m.entries (fun e he => List.mem_map_of_mem he) m ⟨h, rfl, rfl⟩

/-- The loader always succeeds and leaves a tree without tags. -/
theorem loadClassTree_fresh (env : Env) (lines : List TreeLine) :
    ∃ s, loadClassTree env lines = some s ∧ Fresh s.classNodeMap := by
  obtain ⟨m, hm, hsame⟩ :=
    (fresh_init.foldl_loadRow (lines.filterMap (TreeLine.row env))).countLeaves
  exact ⟨_, by rw [loadClassTree, hm, Option.map_some], hsame.fresh⟩

end

end TextMining.BfdClassTree
