import TextMining.AhoCorasick.Trie
import TextMining.Lib.Suffix

/-!
# The failure links

`buildAutomata_spec`: building from a trie terminates, links every word to
its border, and gives every word the id of its longest suffix that carried
one before. The queue is breadth first: when a node is taken from it, all
words at most as long as its own are finished.
-/

namespace TextMining.AhoCorasick

open Suffix

/-- The word carries an id that a failure link can reach. -/
def Labelled (A : AhoCorasick) (w : List UInt8) : Prop := w ≠ [] ∧ A.idAt w ≠ None

instance (A : AhoCorasick) : DecidablePred A.Labelled := fun _ =>
  inferInstanceAs (Decidable (_ ∧ _))

/-- The id of the longest suffix that carries one. -/
def inherit (A : AhoCorasick) (w : List UInt8) : Int :=
  if longest A.Labelled w = [] then None else A.idAt (longest A.Labelled w)

theorem Labelled.has {A : AhoCorasick} {w : List UInt8} (h : A.Labelled w) : A.Has w := by
  by_contra hn
  exact h.2 (idAt_of_not_has hn)

theorem prefixClosed_has (A : AhoCorasick) : PrefixClosed A.Has := fun _ _ h hw => prefix_has h hw

theorem inherit_of_ne {A : AhoCorasick} {w : List UInt8} (hw : w ≠ []) (h : A.idAt w ≠ None) :
    A.inherit w = A.idAt w := by
  have hl : A.Labelled w := ⟨hw, h⟩
  simp [inherit, longest_of_mem hl, hw]

theorem inherit_border {A : AhoCorasick} {w : List UInt8} (h : A.idAt w = None) :
    A.inherit w = A.inherit (border A.Has w) := by
  have hl : ¬ A.Labelled w := fun hl => hl.2 h
  have heq : longest A.Labelled w = longest A.Labelled (border A.Has w) := by
    rw [border, longest_longest fun _ hv => Labelled.has hv, longest_eq_border hl, border]
  rw [inherit, inherit, heq]

@[simp] theorem inherit_nil (A : AhoCorasick) : A.inherit [] = None := rfl

-- ---------------------------------------------------------------------------
-- Finished nodes
-- ---------------------------------------------------------------------------

/-- `B` differs from `A` in ids and failure links only. -/
structure SameTrie (A B : AhoCorasick) : Prop where
  size : B.size = A.size
  child : ∀ i, (B.node i).child = (A.node i).child
  root : (B.node Root).failOff = none

theorem SameTrie.walk {A B : AhoCorasick} (h : SameTrie A B) (w : List UInt8) :
    B.walk w = A.walk w := walk_congr h.child w

theorem SameTrie.has {A B : AhoCorasick} (h : SameTrie A B) (w : List UInt8) :
    B.Has w ↔ A.Has w := by simp [Has, h.walk]

theorem SameTrie.trie {A B : AhoCorasick} (h : SameTrie A B) (ht : A.Trie) : B.Trie where
  bound w i hw := by
    rw [h.walk] at hw
    rw [h.size]
    exact ht.bound w i hw
  reached i hi := by
    rw [h.size] at hi
    obtain ⟨w, hw⟩ := ht.reached i hi
    exact ⟨w, by rw [h.walk, hw]⟩
  inj v w i hv hw := by
    rw [h.walk] at hv hw
    exact ht.inj v w i hv hw
  root := h.root

def Finished (A B : AhoCorasick) (w : List UInt8) : Prop :=
  ∀ i, A.walk w = some i →
    (∃ k, (B.node i).failOff = some k ∧ A.walk (border A.Has w) = some k) ∧
      (B.node i).id = A.inherit w

theorem Finished.congr {A B C : AhoCorasick} {w : List UInt8} (h : Finished A B w)
    (hc : ∀ i, A.walk w = some i → C.node i = B.node i) : Finished A C w := by
  intro i hi
  rw [hc i hi]
  exact h i hi

theorem Has.border {A : AhoCorasick} (w : List UInt8) : A.Has (border A.Has w) := by
  rcases longest_mem A.Has w.tail with h | h
  · rw [Suffix.border, h]; exact has_nil A
  · exact h

-- ---------------------------------------------------------------------------
-- One child
-- ---------------------------------------------------------------------------

/-- The walk along the failure links finds the longest suffix of `v ++ [c]`. -/
theorem findNext_spec {A B : AhoCorasick} (hs : SameTrie A B) (c : UInt8) {fuel : Nat}
    {v : List UInt8} {next : Nat} (hv : A.walk v = some next)
    (hfin : ∀ u, u ≠ [] → u.length ≤ v.length → A.Has u → Finished A B u)
    (hfuel : v.length < fuel) :
    B.findNext c fuel (some next) =
      some (if longest A.Has (v ++ [c]) = [] then none else A.walk (longest A.Has (v ++ [c]))) := by
  induction fuel generalizing v next with
  | zero => omega
  | succ fuel ih =>
    have hwalk : A.walk (v ++ [c]) = (A.node next).child c := by simp [walk_concat, hv]
    simp only [findNext, hs.child]
    cases hc : (A.node next).child c with
    | some j =>
      have hhas : A.Has (v ++ [c]) := has_iff.mpr ⟨j, by rw [hwalk, hc]⟩
      simp [longest_of_mem hhas, hwalk, hc]
    | none =>
      have hhas : ¬ A.Has (v ++ [c]) := by simp [Has, hwalk, hc]
      by_cases hn : v = []
      · subst hn
        obtain rfl : Root = next := Option.some.inj hv
        have hnil : longest A.Has ([] ++ [c]) = [] := by rw [longest_eq_border hhas]; rfl
        rw [if_pos hnil]
        simp [hs.root, findNext]
      · obtain ⟨k, hk, hwk⟩ := (hfin v hn le_rfl (has_iff.mpr ⟨_, hv⟩) next hv).1
        have hlt := border_length A.Has hn
        rw [longest_concat_of_not_mem (prefixClosed_has A) hn hhas]
        simp only [hk]
        exact ih hwk (fun u hu hl => hfin u hu (by omega)) (by omega)

theorem buildChild_spec {A B : AhoCorasick} (ht : A.Trie) (hs : SameTrie A B)
    {w : List UInt8} {father child : Nat} {c : UInt8} (hw : A.walk w = some father)
    (hc : (A.node father).child c = some child)
    (hfin : ∀ u, u ≠ [] → u.length ≤ w.length → A.Has u → Finished A B u)
    (hid : (B.node child).id = (A.node child).id) :
    ∃ C, B.buildChild father c child = some C ∧ SameTrie A C ∧ Finished A C (w ++ [c]) ∧
      ∀ i, i ≠ child → C.node i = B.node i := by
  have hwc : A.walk (w ++ [c]) = some child := by simp [walk_concat, hw, hc]
  have hidA : A.idAt (w ++ [c]) = (A.node child).id := idAt_of_walk hwc
  have hchild : child < B.size := by rw [hs.size]; exact ht.bound _ _ hwc
  have hroot : child ≠ Root := by
    intro he
    have := ht.inj _ _ _ hwc (he ▸ A.walk_nil)
    simp at this
  -- linking `child` touches no other node and keeps the trie
  have hlink : ∀ f, SameTrie A (B.setFail child f) ∧
      ∀ i, i ≠ child → (B.setFail child f).node i = B.node i := by
    intro f
    refine ⟨⟨by simp [hs.size], fun i => by simp [hs.child], ?_⟩, fun i hi => ?_⟩
    · rw [failOff_setFail f hchild, if_neg hroot]; exact hs.root
    · rw [setFail, node_modify, if_neg (fun h => hi h.1.symm)]
  have hset : ∀ f, ((B.setFail child f).node child).failOff = f := fun f => by
    rw [failOff_setFail f hchild, if_pos rfl]
  by_cases hf : father = Root
  · -- a child of the root: the border of one letter is empty
    have hwnil : w = [] := ht.inj _ _ _ hw (hf ▸ A.walk_nil)
    subst hwnil
    have hborder : border A.Has ([] ++ [c]) = [] := rfl
    refine ⟨_, by rw [buildChild, if_pos hf], (hlink _).1, ?_, (hlink _).2⟩
    intro i hi
    rw [hwc] at hi
    obtain rfl := Option.some.inj hi
    refine ⟨⟨Root, hset _, by rw [hborder]; rfl⟩, ?_⟩
    rw [id_setFail, hid, ← hidA]
    by_cases hn : A.idAt ([] ++ [c]) = None
    · rw [inherit_border hn, hborder, inherit_nil, hn]
    · exact (inherit_of_ne (by simp) hn).symm
  · have hwne : w ≠ [] := by
      rintro rfl
      exact hf (Option.some.inj hw).symm
    obtain ⟨k, hk, hwk⟩ := (hfin w hwne le_rfl (has_iff.mpr ⟨_, hw⟩) father hw).1
    have hlt := border_length A.Has hwne
    have hlen := ht.length_lt (has_iff.mpr ⟨_, hw⟩)
    have hborder : border A.Has (w ++ [c]) = longest A.Has (border A.Has w ++ [c]) := by
      obtain ⟨a, w, rfl⟩ := List.exists_cons_of_ne_nil hwne
      rw [border, border, longest_longest_concat (prefixClosed_has A)]
      rfl
    have hfind : B.findNext c B.size (some k) = some (if border A.Has (w ++ [c]) = [] then none
        else A.walk (border A.Has (w ++ [c]))) := by
      rw [hborder]
      exact findNext_spec hs c hwk (fun u hu hl => hfin u hu (by omega)) (by rw [hs.size]; omega)
    simp only [buildChild, if_neg hf, hk, hfind, Option.map_some]
    by_cases hnil : border A.Has (w ++ [c]) = []
    · -- no suffix extends: link to the root
      simp only [hnil, ↓reduceIte]
      refine ⟨_, rfl, (hlink _).1, ?_, (hlink _).2⟩
      intro i hi
      rw [hwc] at hi
      obtain rfl := Option.some.inj hi
      refine ⟨⟨Root, hset _, by rw [hnil]; rfl⟩, ?_⟩
      rw [id_setFail, hid, ← hidA]
      by_cases hn : A.idAt (w ++ [c]) = None
      · rw [inherit_border hn, hnil, inherit_nil, hn]
      · exact (inherit_of_ne (by simp) hn).symm
    · obtain ⟨nextChild, hnext⟩ := has_iff.mp (Has.border (A := A) (w ++ [c]))
      have hshort : (border A.Has (w ++ [c])).length ≤ w.length := by
        have := border_length A.Has (w := w ++ [c]) (by simp)
        simp only [List.length_append, List.length_singleton] at this
        omega
      have hidnext : (B.node nextChild).id = A.inherit (border A.Has (w ++ [c])) :=
        (hfin _ hnil hshort (Has.border _) nextChild hnext).2
      simp only [hnil, ↓reduceIte, hnext]
      rw [id_setFail, hid, ← hidA]
      by_cases hn : A.idAt (w ++ [c]) = None
      · rw [if_pos hn]
        refine ⟨_, rfl, ⟨by simp [hs.size], fun i => by simp [hs.child], ?_⟩, ?_, ?_⟩
        · rw [failOff_setId]; exact (hlink _).1.root
        · intro i hi
          rw [hwc] at hi
          obtain rfl := Option.some.inj hi
          refine ⟨⟨nextChild, by rw [failOff_setId, hset], hnext⟩, ?_⟩
          rw [id_setId _ (by simpa using hchild), if_pos rfl, id_setFail, hidnext,
            inherit_border hn]
        · intro i hi
          rw [setId, node_modify, if_neg (fun h => hi h.1.symm), (hlink _).2 i hi]
      · rw [if_neg hn]
        refine ⟨_, rfl, (hlink _).1, ?_, (hlink _).2⟩
        intro i hi
        rw [hwc] at hi
        obtain rfl := Option.some.inj hi
        refine ⟨⟨nextChild, hset _, hnext⟩, ?_⟩
        rw [id_setFail, hid, ← hidA, inherit_of_ne (by simp) hn]

-- ---------------------------------------------------------------------------
-- All children of a node
-- ---------------------------------------------------------------------------

theorem mem_characters (c : UInt8) : c ∈ characters := by
  have h := c.toNat_lt
  simp only [characters, List.mem_append, List.mem_map, List.mem_range]
  by_cases hc : c.toNat < 128
  · exact .inr ⟨c.toNat, hc, by simp⟩
  · refine .inl ⟨c.toNat - 128, by omega, ?_⟩
    rw [Nat.sub_add_cancel (by omega)]
    simp

theorem nodup_characters : characters.Nodup := by
  refine List.Nodup.of_map UInt8.toNat ?_
  have hcodes : characters.map UInt8.toNat =
      (List.range 128).map (· + 128) ++ List.range 128 := by decide +kernel
  rw [hcodes, List.nodup_append]
  refine ⟨List.nodup_range.map fun _ _ h => Nat.add_right_cancel h, List.nodup_range, ?_⟩
  intro a ha b hb
  simp only [List.mem_map, List.mem_range] at ha hb
  omega

theorem mem_children {A : AhoCorasick} {i : Nat} {e : UInt8 × Nat} :
    e ∈ A.children i ↔ (A.node i).child e.1 = some e.2 := by
  simp only [children, List.mem_filterMap, Option.map_eq_some_iff]
  constructor
  · rintro ⟨c, -, j, hj, rfl⟩
    exact hj
  · intro h
    exact ⟨e.1, mem_characters _, e.2, h, rfl⟩

theorem nodup_children {A : AhoCorasick} (ht : A.Trie) {i : Nat} (hi : i < A.size) :
    ((A.children i).map Prod.snd).Nodup := by
  obtain ⟨w, hw⟩ := ht.reached i hi
  rw [children, List.map_filterMap]
  refine nodup_characters.filterMap ?_
  intro c d j hc hd
  simp only [Option.map_map, Option.mem_def, Option.map_eq_some_iff, Function.comp_apply] at hc hd
  obtain ⟨j₁, hj₁, rfl⟩ := hc
  obtain ⟨j₂, hj₂, he⟩ := hd
  obtain rfl : j₂ = j₁ := he
  have := ht.inj (w ++ [c]) (w ++ [d]) j₂ (by simp [walk_concat, hw, hj₁])
    (by simp [walk_concat, hw, hj₂])
  simpa using this

theorem buildChildren_spec {A B : AhoCorasick} (ht : A.Trie) (hs : SameTrie A B)
    {w : List UInt8} {father : Nat} (hw : A.walk w = some father) (l : List (UInt8 × Nat))
    (hl : ∀ e ∈ l, (A.node father).child e.1 = some e.2) (hnd : (l.map Prod.snd).Nodup)
    (hfin : ∀ u, u ≠ [] → u.length ≤ w.length → A.Has u → Finished A B u)
    (hid : ∀ e ∈ l, (B.node e.2).id = (A.node e.2).id) :
    ∃ C, B.buildChildren father l = some C ∧ SameTrie A C ∧
      (∀ e ∈ l, Finished A C (w ++ [e.1])) ∧
      ∀ i, i ∉ l.map Prod.snd → C.node i = B.node i := by
  induction l generalizing B with
  | nil => exact ⟨B, rfl, hs, by simp, fun _ _ => rfl⟩
  | cons e l ih =>
    obtain ⟨hel, hnd⟩ := List.nodup_cons.mp hnd
    obtain ⟨C, hC, hsC, hfC, hkeep⟩ := buildChild_spec ht hs hw (hl e (by simp)) hfin
      (hid e (by simp))
    have hwe : A.walk (w ++ [e.1]) = some e.2 := by simp [walk_concat, hw, hl e (by simp)]
    -- words up to the length of `w` are not the child
    have hfinC : ∀ u, u ≠ [] → u.length ≤ w.length → A.Has u → Finished A C u := by
      intro u hu hlen hhas
      refine (hfin u hu hlen hhas).congr fun i hi => hkeep i ?_
      rintro rfl
      have := congrArg List.length (ht.inj _ _ _ hi hwe)
      simp only [List.length_append, List.length_singleton] at this
      omega
    have hidC : ∀ e' ∈ l, (C.node e'.2).id = (A.node e'.2).id := by
      intro e' he'
      have hne : e'.2 ≠ e.2 := fun h => hel (h ▸ List.mem_map_of_mem he')
      rw [hkeep _ hne]
      exact hid e' (by simp [he'])
    obtain ⟨D, hD, hsD, hfD, hkeepD⟩ := ih hsC (fun e' he' => hl e' (by simp [he'])) hnd hfinC hidC
    refine ⟨D, by simp [buildChildren, hC, hD], hsD, ?_, ?_⟩
    · intro e' he'
      rcases List.mem_cons.mp he' with rfl | he'
      · refine hfC.congr fun i hi => hkeepD i ?_
        rw [hwe] at hi
        obtain rfl := Option.some.inj hi
        exact hel
      · exact hfD e' he'
    · intro i hi
      simp only [List.map_cons, List.mem_cons, not_or] at hi
      rw [hkeepD i hi.2, hkeep i hi.1]

-- ---------------------------------------------------------------------------
-- The breadth-first queue
-- ---------------------------------------------------------------------------

/-- The state of the build: `popped` nodes have all their children linked, the
queue holds linked nodes in order of depth. -/
structure Progress (A B : AhoCorasick) (popped que : List Nat) : Prop where
  same : SameTrie A B
  nodup : (popped ++ que).Nodup
  bound : ∀ i ∈ popped ++ que, i < A.size
  root : Root ∈ popped ++ que
  parent : ∀ w c i j, A.walk w = some i → (A.node i).child c = some j →
    j ∈ popped ++ que → i ∈ popped
  child : ∀ i ∈ popped, ∀ c j, (A.node i).child c = some j → j ∈ popped ++ que
  sorted : que.Pairwise fun i j => ∀ v w, A.walk v = some i → A.walk w = some j →
    v.length ≤ w.length
  band : ∀ i ∈ que, ∀ j ∈ que, ∀ v w, A.walk v = some i → A.walk w = some j →
    w.length ≤ v.length + 1
  linked : ∀ w i, w ≠ [] → A.walk w = some i → i ∈ popped ++ que → Finished A B w
  fresh : ∀ i, i ∉ popped ++ que → (B.node i).id = (A.node i).id

theorem progress_start {A : AhoCorasick} (ht : A.Trie) : Progress A A [] [Root] where
  same := ⟨rfl, fun _ => rfl, ht.root⟩
  nodup := by simp
  bound i hi := by
    obtain rfl : i = Root := by simpa using hi
    exact ht.bound [] _ rfl
  root := by simp
  parent w c i j hw hc hj := by
    obtain rfl : j = Root := by simpa using hj
    have := ht.inj (w ++ [c]) [] Root (by simp [walk_concat, hw, hc]) rfl
    simp at this
  child := by simp
  sorted := by simp
  band i hi j hj v w hv hw := by
    obtain rfl : i = Root := by simpa using hi
    obtain rfl : j = Root := by simpa using hj
    rw [ht.inj _ _ _ hv hw]
    omega
  linked w i hne hw hi := by
    obtain rfl : i = Root := by simpa using hi
    exact absurd (ht.inj _ _ _ hw A.walk_nil) hne
  fresh _ _ := rfl

theorem Progress.shallow {A B : AhoCorasick} (ht : A.Trie) {popped que : List Nat} {father : Nat}
    (h : Progress A B popped (father :: que)) {w : List UInt8} (hw : A.walk w = some father)
    {u : List UInt8} {i : Nat} (hu : A.walk u = some i) (hlen : u.length ≤ w.length) :
    i ∈ popped ++ father :: que := by
  induction u using List.reverseRecOn generalizing i with
  | nil =>
    obtain rfl : Root = i := Option.some.inj hu
    exact h.root
  | append_singleton v c ih =>
    rw [walk_concat] at hu
    cases hv : A.walk v with
    | none => simp [hv] at hu
    | some k =>
      simp only [hv, Option.bind_some] at hu
      simp only [List.length_append, List.length_singleton] at hlen
      rcases List.mem_append.mp (ih hv (by omega)) with hk | hk
      · exact h.child k hk c i hu
      · -- a shorter word cannot still be in the queue
        exfalso
        rcases List.mem_cons.mp hk with rfl | hk
        · rw [ht.inj _ _ _ hv hw] at hlen
          omega
        · have := (List.pairwise_cons.mp h.sorted).1 k hk w v hw hv
          omega

theorem Progress.step {A B C : AhoCorasick} (ht : A.Trie) {popped que : List Nat} {father : Nat}
    (h : Progress A B popped (father :: que)) {w : List UInt8} (hw : A.walk w = some father)
    (hs : SameTrie A C) (hlinked : ∀ e ∈ A.children father, Finished A C (w ++ [e.1]))
    (hkeep : ∀ i, i ∉ (A.children father).map Prod.snd → C.node i = B.node i) :
    Progress A C (popped ++ [father]) (que ++ (A.children father).map Prod.snd) := by
  have hmem : ∀ i, i ∈ popped ++ [father] ++ (que ++ (A.children father).map Prod.snd) ↔
      i ∈ popped ++ father :: que ∨ ∃ c, (A.node father).child c = some i := by
    intro i
    have : i ∈ (A.children father).map Prod.snd ↔ ∃ c, (A.node father).child c = some i := by
      simp [mem_children]
    simp only [List.mem_append, List.mem_cons, List.not_mem_nil, or_false, this]
    tauto
  have hfather : father < A.size := h.bound father (by simp)
  have hchildWalk : ∀ {c j}, (A.node father).child c = some j → A.walk (w ++ [c]) = some j :=
    fun hc => by simp [walk_concat, hw, hc]
  -- a child of `father` was not queued before: its father would have been popped
  have hnew : ∀ c j, (A.node father).child c = some j → j ∉ popped ++ father :: que := by
    intro c j hc hj
    have hpop := h.parent w c father j hw hc hj
    have hnd := h.nodup
    rw [List.nodup_append] at hnd
    exact hnd.2.2 father hpop father (by simp) rfl
  have hchildDepth : ∀ j ∈ (A.children father).map Prod.snd, ∀ v, A.walk v = some j →
      v.length = w.length + 1 := by
    intro j hj v hv
    simp only [List.mem_map, mem_children] at hj
    obtain ⟨e, he, rfl⟩ := hj
    rw [ht.inj _ _ _ hv (hchildWalk he)]
    simp
  have hqueDepth : ∀ i ∈ que, ∀ v, A.walk v = some i →
      w.length ≤ v.length ∧ v.length ≤ w.length + 1 := fun i hi v hv =>
    ⟨(List.pairwise_cons.mp h.sorted).1 i hi w v hw hv,
      h.band father (by simp) i (by simp [hi]) w v hw hv⟩
  refine ⟨hs, ?_, ?_, (hmem _).mpr (.inl h.root), ?_, ?_, ?_, ?_, ?_, ?_⟩
  · rw [show popped ++ [father] ++ (que ++ (A.children father).map Prod.snd) =
      (popped ++ father :: que) ++ (A.children father).map Prod.snd by simp]
    refine List.nodup_append.mpr ⟨h.nodup, nodup_children ht hfather, ?_⟩
    intro i hi j hj hij
    simp only [List.mem_map, mem_children] at hj
    obtain ⟨e, he, rfl⟩ := hj
    exact hnew e.1 e.2 he (hij ▸ hi)
  · intro i hi
    rcases (hmem i).mp hi with hi | ⟨c, hc⟩
    · exact h.bound i hi
    · exact ht.child_bound hfather hc
  · intro v c i j hv hc hj
    rcases (hmem j).mp hj with hj | ⟨d, hd⟩
    · exact List.mem_append_left _ (h.parent v c i j hv hc hj)
    · -- a child of `father` has no other father
      have he := ht.inj (v ++ [c]) (w ++ [d]) j (by simp [walk_concat, hv, hc]) (hchildWalk hd)
      obtain ⟨rfl, -⟩ := List.append_inj' he rfl
      rw [hw] at hv
      obtain rfl := Option.some.inj hv
      simp
  · intro i hi c j hc
    rcases List.mem_append.mp hi with hi | hi
    · exact (hmem j).mpr (.inl (h.child i hi c j hc))
    · obtain rfl : i = father := by simpa using hi
      exact (hmem j).mpr (.inr ⟨c, hc⟩)
  · refine List.pairwise_append.mpr ⟨(List.pairwise_cons.mp h.sorted).2, ?_, ?_⟩
    · refine List.pairwise_of_forall_mem_list ?_
      intro i hi j hj v u hv hu
      rw [hchildDepth i hi v hv, hchildDepth j hj u hu]
    · intro i hi j hj v u hv hu
      rw [hchildDepth j hj u hu]
      exact (hqueDepth i hi v hv).2
  · intro i hi j hj v u hv hu
    have hdepth : ∀ k ∈ que ++ (A.children father).map Prod.snd, ∀ x, A.walk x = some k →
        w.length ≤ x.length ∧ x.length ≤ w.length + 1 := by
      intro k hk x hx
      rcases List.mem_append.mp hk with hk | hk
      · exact hqueDepth k hk x hx
      · rw [hchildDepth k hk x hx]; omega
    have := hdepth i hi v hv
    have := hdepth j hj u hu
    omega
  · intro v i hne hv hi
    rcases (hmem i).mp hi with hi | ⟨c, hc⟩
    · refine (h.linked v i hne hv hi).congr fun k hk => hkeep k ?_
      rw [hv] at hk
      obtain rfl := Option.some.inj hk
      simp only [List.mem_map, mem_children, not_exists, not_and]
      rintro e he rfl
      exact hnew e.1 e.2 he hi
    · rw [ht.inj _ _ _ hv (hchildWalk hc)]
      exact hlinked (c, i) (mem_children.mpr hc)
  · intro i hi
    have hi' := mt (hmem i).mpr hi
    rw [hkeep i, h.fresh i (fun hmem' => hi' (.inl hmem'))]
    simp only [List.mem_map, mem_children, not_exists, not_and]
    rintro e he rfl
    exact hi' (.inr ⟨e.1, he⟩)

theorem buildLoop_spec {A B : AhoCorasick} (ht : A.Trie) {popped que : List Nat} {fuel : Nat}
    (h : Progress A B popped que) (hfuel : A.size ≤ fuel + popped.length) :
    ∃ C popped', B.buildLoop fuel que = some C ∧ Progress A C popped' [] := by
  induction fuel generalizing B popped que with
  | zero =>
    have hcard : (popped ++ que).length ≤ A.size := by
      have hsub : popped ++ que ⊆ List.range A.size := fun i hi => List.mem_range.mpr (h.bound i hi)
      simpa using (h.nodup.subperm hsub).length_le
    simp only [List.length_append] at hcard
    obtain rfl : que = [] := List.length_eq_zero_iff.mp (by omega)
    exact ⟨B, popped, rfl, h⟩
  | succ fuel ih =>
    cases que with
    | nil => exact ⟨B, popped, by simp [buildLoop], h⟩
    | cons father que =>
      obtain ⟨w, hw⟩ := ht.reached father (h.bound father (by simp))
      have hfather : father < A.size := h.bound father (by simp)
      have hchildren : B.children father = A.children father := by simp [children, h.same.child]
      obtain ⟨C, hC, hsC, hfC, hkeep⟩ := buildChildren_spec ht h.same hw (A.children father)
        (fun e he => mem_children.mp he) (nodup_children ht hfather)
        (fun u hu hlen hhas => by
          obtain ⟨i, hi⟩ := has_iff.mp hhas
          exact h.linked u i hu hi (h.shallow ht hw hi hlen))
        (fun e he => by
          apply h.fresh
          intro hmem
          have hpop := h.parent w e.1 father e.2 hw (mem_children.mp he) hmem
          have hnd := h.nodup
          rw [List.nodup_append] at hnd
          exact hnd.2.2 father hpop father (by simp) rfl)
      have hstep := h.step ht hw hsC hfC hkeep
      obtain ⟨D, popped', hD, hp⟩ := ih hstep (by simp; omega)
      exact ⟨D, popped', by simp [buildLoop, hchildren, hC, hD], hp⟩

/-- `build_automata` terminates. Afterwards every word is linked to its border
and carries the id of its longest suffix that carried one before. -/
theorem buildAutomata_spec {A : AhoCorasick} (ht : A.Trie) :
    ∃ B, A.buildAutomata = some B ∧ SameTrie A B ∧
      ∀ w, w ≠ [] → A.Has w → Finished A B w := by
  have hfuel : A.size ≤ A.size + ([] : List Nat).length := by simp
  obtain ⟨B, popped, hB, hp⟩ := buildLoop_spec ht (progress_start ht) hfuel
  refine ⟨B, hB, hp.same, fun w hne hhas => ?_⟩
  -- with the queue empty, the children of popped nodes are popped
  have hall : ∀ u i, A.walk u = some i → i ∈ popped ++ [] := by
    intro u
    induction u using List.reverseRecOn with
    | nil =>
      intro i hi
      obtain rfl : Root = i := Option.some.inj hi
      exact hp.root
    | append_singleton v c ih =>
      intro i hi
      rw [walk_concat] at hi
      cases hv : A.walk v with
      | none => simp [hv] at hi
      | some k =>
        simp only [hv, Option.bind_some] at hi
        exact hp.child k (by simpa using ih k hv) c i hi
  obtain ⟨i, hi⟩ := has_iff.mp hhas
  exact hp.linked w i hne hi (hall w i hi)

end TextMining.AhoCorasick
