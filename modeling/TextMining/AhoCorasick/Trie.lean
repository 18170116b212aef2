import TextMining.AhoCorasick.Model
import Mathlib.Data.List.Infix
import Mathlib.Data.Finset.Card

/-!
# The nodes are a trie

`A.walk w` follows the children from the root. In a well-formed automaton
every node is reached by exactly one word, so a word stands for its node:
`A.Has w` says that the word has a node and `A.idAt w` reads its id.
-/

namespace TextMining.AhoCorasick

-- ---------------------------------------------------------------------------
-- Reading an updated node list
-- ---------------------------------------------------------------------------

section
variable {A : AhoCorasick} {i j off : Nat}

@[simp] theorem size_modify (f : Node → Node) : (A.modify off f).size = A.size := by
  simp [size, modify]

@[simp] theorem size_push (n : Node) : (A.push n).size = A.size + 1 := by
  simp [size, push]

@[simp] theorem size_setId (id : Int) : (A.setId off id).size = A.size := size_modify _

@[simp] theorem size_setFail (f : Option Nat) : (A.setFail off f).size = A.size := size_modify _

@[simp] theorem size_setChild (c : UInt8) : (A.setChild off c j).size = A.size := size_modify _

theorem node_modify (f : Node → Node) :
    (A.modify off f).node i = if off = i ∧ i < A.size then f (A.node i) else A.node i := by
  simp only [node, modify, size, List.getElem?_modify]
  by_cases h : i < A.nodes.length
  · by_cases ho : off = i <;> simp [h, ho]
  · simp [h]

theorem node_push (n : Node) : (A.push n).node i = if i = A.size then n else A.node i := by
  simp only [node, push, size]
  rcases lt_trichotomy i A.nodes.length with h | h | h
  · simp [List.getElem?_append_left h, h.ne]
  · simp [h]
  · rw [List.getElem?_append_right h.le, List.getElem?_eq_none (l := A.nodes) h.le]
    have : [n][i - A.nodes.length]? = none := List.getElem?_eq_none (by simp; omega)
    simp [this, h.ne']

theorem node_of_size_le (h : A.size ≤ i) : A.node i = Node.fresh := by
  simp [node, List.getElem?_eq_none (l := A.nodes) h]

@[simp] theorem child_setId (id : Int) : ((A.setId off id).node i).child = (A.node i).child := by
  rw [setId, node_modify]; split <;> rfl

@[simp] theorem failOff_setId (id : Int) :
    ((A.setId off id).node i).failOff = (A.node i).failOff := by
  rw [setId, node_modify]; split <;> rfl

theorem id_setId (id : Int) (h : off < A.size) :
    ((A.setId off id).node i).id = if off = i then id else (A.node i).id := by
  rw [setId, node_modify]
  by_cases ho : off = i
  · subst ho; simp [h]
  · simp [ho]

@[simp] theorem child_setFail (f : Option Nat) :
    ((A.setFail off f).node i).child = (A.node i).child := by
  rw [setFail, node_modify]; split <;> rfl

@[simp] theorem id_setFail (f : Option Nat) : ((A.setFail off f).node i).id = (A.node i).id := by
  rw [setFail, node_modify]; split <;> rfl

theorem failOff_setFail (f : Option Nat) (h : off < A.size) :
    ((A.setFail off f).node i).failOff = if off = i then f else (A.node i).failOff := by
  rw [setFail, node_modify]
  by_cases ho : off = i
  · subst ho; simp [h]
  · simp [ho]

end

-- ---------------------------------------------------------------------------
-- Words and nodes
-- ---------------------------------------------------------------------------

def walkFrom (A : AhoCorasick) (off : Nat) (w : List UInt8) : Option Nat :=
  w.foldlM (fun off c => (A.node off).child c) off

def walk (A : AhoCorasick) (w : List UInt8) : Option Nat := A.walkFrom Root w

def Has (A : AhoCorasick) (w : List UInt8) : Prop := (A.walk w).isSome = true

instance (A : AhoCorasick) : DecidablePred A.Has := fun _ => inferInstanceAs (Decidable (_ = true))

/-- The id stored for a word, `None` without a node. -/
def idAt (A : AhoCorasick) (w : List UInt8) : Int :=
  ((A.walk w).map fun i => (A.node i).id).getD None

@[simp] theorem walk_nil (A : AhoCorasick) : A.walk [] = some Root := rfl

@[simp] theorem has_nil (A : AhoCorasick) : A.Has [] := rfl

theorem walkFrom_cons (A : AhoCorasick) (off : Nat) (c : UInt8) (w : List UInt8) :
    A.walkFrom off (c :: w) = ((A.node off).child c).bind fun i => A.walkFrom i w := rfl

theorem walkFrom_append (A : AhoCorasick) (off : Nat) (v w : List UInt8) :
    A.walkFrom off (v ++ w) = (A.walkFrom off v).bind fun i => A.walkFrom i w := by
  simp [walkFrom, List.foldlM_append]

theorem walk_append (A : AhoCorasick) (v w : List UInt8) :
    A.walk (v ++ w) = (A.walk v).bind fun i => A.walkFrom i w := A.walkFrom_append Root v w

theorem walk_concat (A : AhoCorasick) (w : List UInt8) (c : UInt8) :
    A.walk (w ++ [c]) = (A.walk w).bind fun i => (A.node i).child c := by
  rw [walk_append]
  congr 1
  funext i
  simp [walkFrom]

theorem has_iff {A : AhoCorasick} {w : List UInt8} : A.Has w ↔ ∃ i, A.walk w = some i :=
  Option.isSome_iff_exists

theorem idAt_of_walk {A : AhoCorasick} {w : List UInt8} {i : Nat} (h : A.walk w = some i) :
    A.idAt w = (A.node i).id := by
  simp [idAt, h]

theorem idAt_of_not_has {A : AhoCorasick} {w : List UInt8} (h : ¬ A.Has w) : A.idAt w = None := by
  have hw : A.walk w = none := by simpa [Has] using h
  simp [idAt, hw]

theorem prefix_has {A : AhoCorasick} {v w : List UInt8} (h : v <+: w) (hw : A.Has w) : A.Has v := by
  obtain ⟨t, rfl⟩ := h
  rw [Has, walk_append] at hw
  rw [has_iff]
  cases hv : A.walk v with
  | none => simp [hv] at hw
  | some i => exact ⟨i, rfl⟩

/-- Every node is reached by exactly one word. -/
structure Trie (A : AhoCorasick) : Prop where
  bound : ∀ w i, A.walk w = some i → i < A.size
  reached : ∀ i, i < A.size → ∃ w, A.walk w = some i
  inj : ∀ v w i, A.walk v = some i → A.walk w = some i → v = w
  root : (A.node Root).failOff = none

theorem Trie.child_bound {A : AhoCorasick} (h : A.Trie) {i j : Nat} {c : UInt8}
    (hi : i < A.size) (hc : (A.node i).child c = some j) : j < A.size := by
  obtain ⟨w, hw⟩ := h.reached i hi
  exact h.bound (w ++ [c]) j (by simp [walk_concat, hw, hc])

theorem Trie.length_lt {A : AhoCorasick} (h : A.Trie) {w : List UInt8} (hw : A.Has w) :
    w.length < A.size := by
  have hp : ∀ k, ∃ i, A.walk (w.take k) = some i := fun k =>
    has_iff.mp (prefix_has (List.take_prefix k w) hw)
  choose f hf using hp
  have hinj : Set.InjOn f (Finset.range (w.length + 1)) := by
    intro a ha b hb hab
    simp only [Finset.coe_range, Set.mem_Iio] at ha hb
    have heq := h.inj _ _ _ (hf a) (hab ▸ hf b)
    have hlen := congrArg List.length heq
    simp only [List.length_take] at hlen
    omega
  have hmaps : ∀ k ∈ Finset.range (w.length + 1), f k ∈ Finset.range A.size := fun k _ =>
    Finset.mem_range.mpr (h.bound _ _ (hf k))
  have hcard := Finset.card_le_card_of_injOn f hmaps hinj
  simpa [Nat.succ_le_iff] using hcard

-- ---------------------------------------------------------------------------
-- The empty automaton
-- ---------------------------------------------------------------------------

theorem walk_clear {w : List UInt8} : clear.walk w = if w = [] then some Root else none := by
  cases w with
  | nil => rfl
  | cons c w => simp [walk, walkFrom_cons, clear, node, Root]

theorem has_clear {w : List UInt8} : clear.Has w ↔ w = [] := by
  simp [Has, walk_clear, apply_ite Option.isSome]

theorem idAt_clear (w : List UInt8) : clear.idAt w = None := by
  by_cases h : w = []
  · subst h; rfl
  · exact idAt_of_not_has (mt has_clear.mp h)

theorem trie_clear : clear.Trie where
  bound w i h := by
    rw [walk_clear] at h
    split at h
    · cases h; decide
    · cases h
  reached i hi := ⟨[], by
    obtain rfl : i = 0 := by simpa [size, clear] using hi
    rfl⟩
  inj v w i hv hw := by
    rw [walk_clear] at hv hw
    split at hv
    · split at hw
      · simp [*]
      · cases hw
    · cases hv
  root := rfl

-- ---------------------------------------------------------------------------
-- Adding a child
-- ---------------------------------------------------------------------------

theorem walk_congr {A B : AhoCorasick} (h : ∀ i, (B.node i).child = (A.node i).child)
    (w : List UInt8) : B.walk w = A.walk w := by
  simp [walk, walkFrom, h]

theorem walk_setId {A : AhoCorasick} {off : Nat} {id : Int} (w : List UInt8) :
    (A.setId off id).walk w = A.walk w := walk_congr (fun _ => child_setId id) w

theorem child_addChild {A : AhoCorasick} {off i : Nat} {c d : UInt8} (hoff : off < A.size)
    (hnone : (A.node off).child c = none) :
    ((A.addChild off c).node i).child d =
      if i = off ∧ d = c then some A.size else (A.node i).child d := by
  have hne : off ≠ A.size := hoff.ne
  simp only [addChild, hnone, ↓reduceIte, node_push, size_setChild]
  by_cases hi : i = A.size
  · subst hi
    simp [Ne.symm hne, node_of_size_le le_rfl, Node.fresh]
  · rw [if_neg hi, setChild, node_modify]
    by_cases ho : off = i
    · subst ho
      by_cases hd : d = c <;> simp [hoff, hd]
    · simp [ho, Ne.symm ho]

theorem addChild_of_some {A : AhoCorasick} {off j : Nat} {c : UInt8}
    (h : (A.node off).child c = some j) : A.addChild off c = A := by
  simp [addChild, h]

theorem id_addChild {A : AhoCorasick} {off i : Nat} {c : UInt8} :
    ((A.addChild off c).node i).id = (A.node i).id := by
  unfold addChild
  split
  · rw [node_push, size_setChild]
    split
    · rename_i hi
      simp [node_of_size_le (A := A) hi.ge, Node.fresh]
    · rw [setChild, node_modify]; split <;> rfl
  · rfl

theorem failOff_addChild {A : AhoCorasick} {off i : Nat} {c : UInt8} :
    ((A.addChild off c).node i).failOff = (A.node i).failOff := by
  unfold addChild
  split
  · rw [node_push, size_setChild]
    split
    · rename_i hi
      simp [node_of_size_le (A := A) hi.ge, Node.fresh]
    · rw [setChild, node_modify]; split <;> rfl
  · rfl

theorem walk_addChild {A : AhoCorasick} (h : A.Trie) {w : List UInt8} {off : Nat} {c : UInt8}
    (hw : A.walk w = some off) (hnone : (A.node off).child c = none) (u : List UInt8) :
    (A.addChild off c).walk u = if u = w ++ [c] then some A.size else A.walk u := by
  have hoff := h.bound w off hw
  induction u using List.reverseRecOn with
  | nil => simp
  | append_singleton v d ih =>
    rw [walk_concat, ih]
    by_cases hv : v = w ++ [c]
    · -- below the new node there is nothing yet
      subst hv
      have hlen : w ++ [c] ++ [d] ≠ w ++ [c] := by
        intro he; simpa using congrArg List.length he
      simp only [↓reduceIte, Option.bind_some, if_neg hlen]
      rw [child_addChild hoff hnone, walk_concat, walk_concat, hw]
      simp [hnone, hoff.ne', node_of_size_le le_rfl, Node.fresh]
    · rw [if_neg hv, walk_concat]
      cases hi : A.walk v with
      | none =>
        have : v ++ [d] ≠ w ++ [c] := by
          intro he
          obtain ⟨rfl, -⟩ := List.append_inj' he rfl
          rw [hw] at hi; cases hi
        simp [this]
      | some i =>
        simp only [Option.bind_some]
        rw [child_addChild hoff hnone]
        have hiff : (i = off ∧ d = c) ↔ v ++ [d] = w ++ [c] := by
          constructor
          · rintro ⟨rfl, rfl⟩
            rw [h.inj _ _ _ hi hw]
          · intro he
            obtain ⟨rfl, hd⟩ := List.append_inj' he rfl
            rw [hw] at hi
            exact ⟨(Option.some.inj hi).symm, by simpa using hd⟩
        simp only [hiff]

theorem trie_addChild {A : AhoCorasick} (h : A.Trie) {w : List UInt8} {off : Nat} {c : UInt8}
    (hw : A.walk w = some off) : (A.addChild off c).Trie := by
  cases hc : (A.node off).child c with
  | some j => rwa [addChild_of_some hc]
  | none =>
    have hsize : (A.addChild off c).size = A.size + 1 := by simp [addChild, hc]
    refine ⟨?_, ?_, ?_, ?_⟩
    · intro u i hu
      rw [walk_addChild h hw hc] at hu
      rw [hsize]
      split at hu
      · cases hu; omega
      · have := h.bound u i hu; omega
    · intro i hi
      rw [hsize] at hi
      by_cases he : i = A.size
      · exact ⟨w ++ [c], by rw [walk_addChild h hw hc, if_pos rfl, he]⟩
      · obtain ⟨u, hu⟩ := h.reached i (by omega)
        refine ⟨u, ?_⟩
        rw [walk_addChild h hw hc, if_neg, hu]
        rintro rfl
        rw [walk_concat, hw] at hu
        simp [hc] at hu
    · intro u v i hu hv
      rw [walk_addChild h hw hc] at hu hv
      split at hu <;> split at hv
      · simp [*]
      · cases hu; exact absurd (h.bound _ _ hv) (lt_irrefl _)
      · cases hv; exact absurd (h.bound _ _ hu) (lt_irrefl _)
      · exact h.inj _ _ _ hu hv
    · rw [failOff_addChild]; exact h.root

-- ---------------------------------------------------------------------------
-- Inserting a word
-- ---------------------------------------------------------------------------

theorem insertLoop_spec {A : AhoCorasick} (h : A.Trie) {w : List UInt8} {off : Nat}
    (hw : A.walk w = some off) (str : List UInt8) :
    (A.insertLoop off str).1.Trie ∧
      (A.insertLoop off str).1.walk (w ++ str) = some (A.insertLoop off str).2 ∧
      (∀ u, (A.insertLoop off str).1.Has u ↔ A.Has u ∨ u <+: w ++ str) ∧
      ∀ u, (A.insertLoop off str).1.idAt u = A.idAt u := by
  induction str generalizing A w off with
  | nil =>
    refine ⟨h, by simpa [insertLoop] using hw, fun u => ?_, fun _ => rfl⟩
    refine ⟨.inl, ?_⟩
    rintro (hu | hu)
    · exact hu
    · exact prefix_has (by simpa using hu) (has_iff.mpr ⟨off, hw⟩)
  | cons c str ih =>
    have ht := trie_addChild h (c := c) hw
    -- the node reached by `c`, new or old, and what the addition changed
    obtain ⟨j, hj, hhas, hid⟩ : ∃ j, (A.addChild off c).walk (w ++ [c]) = some j ∧
        (∀ u, (A.addChild off c).Has u ↔ A.Has u ∨ u = w ++ [c]) ∧
        ∀ u, (A.addChild off c).idAt u = A.idAt u := by
      cases hc : (A.node off).child c with
      | some j =>
        rw [addChild_of_some hc]
        have hj : A.walk (w ++ [c]) = some j := by simp [walk_concat, hw, hc]
        refine ⟨j, hj, fun u => ⟨.inl, ?_⟩, fun _ => rfl⟩
        rintro (hu | rfl)
        · exact hu
        · exact has_iff.mpr ⟨j, hj⟩
      | none =>
        refine ⟨A.size, by simp [walk_addChild h hw hc], fun u => ?_, fun u => ?_⟩
        · by_cases hu : u = w ++ [c] <;> simp [Has, walk_addChild h hw hc, hu]
        · by_cases hu : u = w ++ [c]
          · have hold : ¬ A.Has u := by simp [hu, Has, walk_concat, hw, hc]
            have hnew : (A.addChild off c).walk u = some A.size := by
              simp [walk_addChild h hw hc, hu]
            rw [idAt_of_not_has hold, idAt_of_walk hnew, id_addChild, node_of_size_le le_rfl]
            rfl
          · simp [idAt, walk_addChild h hw hc, hu, id_addChild]
    have hchild : ((A.addChild off c).node off).child c = some j := by
      rw [walk_concat] at hj
      cases hv : (A.addChild off c).walk w with
      | none => simp [hv] at hj
      | some i =>
        have hoff : (A.addChild off c).walk w = some off := by
          cases hc : (A.node off).child c with
          | some k => rwa [addChild_of_some hc]
          | none => rwa [walk_addChild h hw hc, if_neg (by simp)]
        rw [hoff] at hj
        exact hj
    have hstep : A.insertLoop off (c :: str) = (A.addChild off c).insertLoop j str := by
      simp [insertLoop, hchild]
    obtain ⟨h1, h2, h3, h4⟩ := ih ht hj
    rw [hstep]
    refine ⟨h1, by simpa using h2, fun u => ?_, fun u => by rw [h4, hid]⟩
    rw [h3, hhas]
    constructor
    · rintro ((hu | rfl) | hu)
      · exact .inl hu
      · exact .inr (by simp)
      · exact .inr (by simpa using hu)
    · rintro (hu | hu)
      · exact .inl (.inl hu)
      · exact .inr (by simpa using hu)

/-- `insert` adds the prefixes of the word and sets the word's id. -/
theorem insert_spec {A : AhoCorasick} (h : A.Trie) (str : List UInt8) (id : Int) :
    (A.insert str id).Trie ∧ (∀ u, (A.insert str id).Has u ↔ A.Has u ∨ u <+: str) ∧
      ∀ u, (A.insert str id).idAt u = if u = str then id else A.idAt u := by
  obtain ⟨h1, h2, h3, h4⟩ := insertLoop_spec h A.walk_nil str
  set B := (A.insertLoop Root str).1
  set off := (A.insertLoop Root str).2
  have hins : A.insert str id = B.setId off id := rfl
  rw [List.nil_append] at h2 h3
  have hoff := h1.bound _ _ h2
  rw [hins]
  refine ⟨⟨?_, ?_, ?_, ?_⟩, fun u => ?_, fun u => ?_⟩
  · intro w i hw
    rw [walk_setId] at hw
    simpa using h1.bound w i hw
  · intro i hi
    obtain ⟨w, hw⟩ := h1.reached i (by simpa using hi)
    exact ⟨w, by rwa [walk_setId]⟩
  · intro v w i hv hw
    rw [walk_setId] at hv hw
    exact h1.inj v w i hv hw
  · rw [failOff_setId]; exact h1.root
  · rw [← h3]; simp [Has, walk_setId]
  · by_cases hu : u = str
    · subst hu
      simp [idAt, walk_setId, h2, id_setId id hoff]
    · rw [if_neg hu, ← h4 u]
      cases hi : B.walk u with
      | none => simp [idAt, walk_setId, hi]
      | some i =>
        have hne : off ≠ i := by
          rintro rfl
          exact hu (h1.inj _ _ _ hi h2)
        simp [idAt, walk_setId, hi, id_setId id hoff, hne]

end TextMining.AhoCorasick
