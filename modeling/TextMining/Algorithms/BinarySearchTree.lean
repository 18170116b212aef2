import Mathlib.Data.List.Sort
import Mathlib.Order.Defs.LinearOrder
import Mathlib.Data.Int.Order.Basic
import Mathlib.Data.List.Induction

/-!
# The binary search tree

`BSTree` of `binary_search_tree.cc`. Every node has one owner, so the nodes
form a tree; a subtree together with the way from the root to it stands for a
pointer into it. `root_` itself points to freed memory once `Delete` has freed
the root, and there is no tree any more.
-/

namespace TextMining.BinarySearchTree

inductive TreeNode
  | null
  | node (left : TreeNode) (value : Int) (right : TreeNode)
  deriving DecidableEq, Repr

namespace TreeNode

def inorder : TreeNode → List Int
  | null => []
  | node left value right => left.inorder ++ value :: right.inorder

def insert (value : Int) : TreeNode → TreeNode
  | null => node null value null
  | node left v right =>
    if value < v then node (left.insert value) v right else node left v (right.insert value)

end TreeNode

open TreeNode

-- ---------------------------------------------------------------------------
-- Searching
-- ---------------------------------------------------------------------------

inductive Side
  | left
  | right
  deriving DecidableEq

/-- A node on the way to a subtree, without that child. -/
structure Frame where
  side : Side
  value : Int
  other : TreeNode

def Frame.plug (f : Frame) (t : TreeNode) : TreeNode :=
  match f.side with
  | .left => node t f.value f.other
  | .right => node f.other f.value t

def plug : List Frame → TreeNode → TreeNode
  | [], t => t
  | f :: frames, t => plug frames (f.plug t)

/-- `SubSearch`: the node and the way to it; `*father` is the first frame. -/
def subSearch (value : Int) : List Frame → TreeNode → Option (List Frame × TreeNode)
  | _, null => none
  | frames, node left v right =>
    if value = v then some (frames, node left v right)
    else if value < v then subSearch value (⟨.left, v, right⟩ :: frames) left
    else subSearch value (⟨.right, v, left⟩ :: frames) right

-- ---------------------------------------------------------------------------
-- Deleting
-- ---------------------------------------------------------------------------

/-- `father->left = child` or `father->right = child`, whichever the values of
`p` and `father` say; `p` is the child that the frame lacks. -/
def setChild (father : Frame) (p : TreeNode) (value : Int) (child : TreeNode) : TreeNode :=
  if value < father.value then
    match father.side with
    | .left => node child father.value father.other
    | .right => node child father.value p
  else
    match father.side with
    | .left => node p father.value child
    | .right => node father.other father.value child

/-- `p` is taken out for a child of it; `none` when `root_` is left pointing to
the freed root. -/
def unlink (frames : List Frame) (p : TreeNode) (value : Int) (child : TreeNode) :
    Option TreeNode :=
  match frames with
  | [] => none
  | father :: frames => some (plug frames (setChild father p value child))

/-- The loop to `replace_node` from a node that is not `p->left`: its value,
and the tree after `tmp_node->right = NULL`. -/
def cutLast : TreeNode → Int × TreeNode
  | null => (0, null)
  | node _ value null => (value, null)
  | node left value right =>
    let (last, right) := cutLast right
    (last, node left value right)

/-- The left child of a node with two children after its `replace_node` is
deleted, and the value of that. -/
def replaceNode : TreeNode → Int × TreeNode
  | null => (0, null)
  | node left value null => (value, left)
  | node left value right =>
    let (last, right) := cutLast right
    (last, node left value right)

def delete (value : Int) (t : TreeNode) : Nat × Option TreeNode :=
  match subSearch value [] t with
  | none => (1, some t)
  | some (_, null) => (1, some t)
  | some (frames, node null v null) => (0, unlink frames (node null v null) v null)
  | some (frames, node null v right) => (0, unlink frames (node null v right) v right)
  | some (frames, node left v null) => (0, unlink frames (node left v null) v left)
  | some (frames, node left _ right) =>
    let (last, left) := replaceNode left
    (0, some (plug frames (node left last right)))

-- ---------------------------------------------------------------------------
-- Runs
-- ---------------------------------------------------------------------------

inductive Call
  | insert (value : Int)
  | delete (value : Int)

def Call.exec (root : Option TreeNode) : Call → Option TreeNode
  | .insert value => root.map (TreeNode.insert value)
  | .delete value => root.bind fun t => (BinarySearchTree.delete value t).2

def run (calls : List Call) : Option TreeNode := calls.foldl Call.exec (some null)

def Call.apply (values : List Int) : Call → List Int
  | .insert value => values.orderedInsert (· ≤ ·) value
  | .delete value => values.erase value

def stored (calls : List Call) : List Int := calls.foldl Call.apply []

def DeletesOne (value : Int) (t : TreeNode) : Prop :=
  ((delete value t).1 = 0 ↔ value ∈ t.inorder) ∧
    ∃ t', (delete value t).2 = some t' ∧ t'.inorder = t.inorder.erase value

/-- The left subtree of the last node is not there to be lost. -/
def BareLast : TreeNode → Prop
  | null => True
  | node left _ null => left = null
  | node _ _ right => BareLast right

/-- The node that is found is not the root unless it has two children, and the
predecessor of a node with two children is its left child or has no child. -/
def Deletable (value : Int) (t : TreeNode) : Prop :=
  match subSearch value [] t with
  | none => True
  | some (_, node (node _ _ below) _ (node _ _ _)) => BareLast below
  | some (frames, _) => frames ≠ []

-- ---------------------------------------------------------------------------
-- The tree around a node
-- ---------------------------------------------------------------------------

def before : List Frame → List Int
  | [] => []
  | f :: frames => before frames ++
    match f.side with
    | .left => []
    | .right => f.other.inorder ++ [f.value]

def after : List Frame → List Int
  | [] => []
  | f :: frames =>
    (match f.side with
    | .left => f.value :: f.other.inorder
    | .right => []) ++ after frames

theorem inorder_plug (frames : List Frame) (t : TreeNode) :
    (plug frames t).inorder = before frames ++ t.inorder ++ after frames := by
  induction frames generalizing t with
  | nil => simp [plug, before, after]
  | cons f frames ih =>
    rw [plug, ih, Frame.plug, before, after]
    cases f.side with
    | left => simp [inorder]
    | right => simp [inorder]

def Toward (value : Int) (f : Frame) : Prop :=
  match f.side with
  | .left => value < f.value
  | .right => f.value < value

theorem subSearch_some {value : Int} {frames fs : List Frame} {t p : TreeNode}
    (hf : ∀ f ∈ frames, Toward value f) (h : subSearch value frames t = some (fs, p)) :
    (∃ l r, p = node l value r) ∧ plug fs p = plug frames t ∧ ∀ f ∈ fs, Toward value f := by
  induction t generalizing frames with
  | null => cases h
  | node left v right ihl ihr =>
    unfold subSearch at h
    split at h
    · rename_i hv
      obtain ⟨rfl, rfl⟩ := Prod.mk.inj (Option.some.inj h)
      exact ⟨⟨left, right, by rw [hv]⟩, rfl, hf⟩
    · rename_i hv
      split at h
      · rename_i hlt
        exact ihl (List.forall_mem_cons.mpr ⟨show Toward value ⟨.left, v, right⟩ from hlt, hf⟩) h
      · rename_i hlt
        have hgt : v < value := lt_of_le_of_ne (not_lt.mp hlt) (Ne.symm hv)
        exact ihr (List.forall_mem_cons.mpr ⟨show Toward value ⟨.right, v, left⟩ from hgt, hf⟩) h

theorem subSearch_none {value : Int} {frames : List Frame} {t : TreeNode}
    (hs : t.inorder.Pairwise (· ≤ ·)) (h : subSearch value frames t = none) :
    value ∉ t.inorder := by
  induction t generalizing frames with
  | null => exact List.not_mem_nil
  | node left v right ihl ihr =>
    obtain ⟨hl, hr, hlr⟩ := List.pairwise_append.mp hs
    obtain ⟨hv, hr⟩ := List.pairwise_cons.mp hr
    unfold subSearch at h
    split at h
    · cases h
    · rename_i hne
      rw [inorder, List.mem_append, List.mem_cons, not_or, not_or]
      split at h
      · rename_i hlt
        refine ⟨ihl hl h, hne, fun hm => ?_⟩
        exact absurd (hv value hm) (not_le.mpr hlt)
      · rename_i hlt
        refine ⟨fun hm => ?_, hne, ihr hr h⟩
        have hle := hlr value hm v List.mem_cons_self
        exact hne (le_antisymm hle (not_lt.mp hlt))

-- ---------------------------------------------------------------------------
-- One call
-- ---------------------------------------------------------------------------

theorem setChild_eq {value : Int} {father : Frame} (h : Toward value father) (p child : TreeNode) :
    setChild father p value child = father.plug child := by
  unfold setChild Frame.plug
  unfold Toward at h
  cases hs : father.side with
  | left =>
    rw [hs] at h
    rw [if_pos h]
  | right =>
    rw [hs] at h
    rw [if_neg (not_lt.mpr (le_of_lt h))]

theorem unlink_eq {value : Int} {frames : List Frame} (h : ∀ f ∈ frames, Toward value f)
    (p child : TreeNode) :
    unlink frames p value child = if frames = [] then none else some (plug frames child) := by
  cases frames with
  | nil => rfl
  | cons f frames =>
    rw [unlink, setChild_eq (h f List.mem_cons_self), if_neg (List.cons_ne_nil f frames)]
    rfl

theorem inorder_eq_nil {t : TreeNode} : t.inorder = [] ↔ t = null := by
  cases t with
  | null => simp [inorder]
  | node left value right => simp [inorder]

theorem cutLast_inorder {t : TreeNode} (h : t ≠ null) :
    (cutLast t).2.inorder ++ [(cutLast t).1] = t.inorder ↔ BareLast t := by
  induction t with
  | null => exact absurd rfl h
  | node left value right _ ih =>
    cases right with
    | null =>
      rw [cutLast, BareLast, ← inorder_eq_nil, inorder, inorder, inorder, List.append_left_inj]
      exact eq_comm
    | node l v r =>
      have hcut : cutLast (node left value (node l v r)) =
          ((cutLast (node l v r)).1, node left value (cutLast (node l v r)).2) := rfl
      have hbare : BareLast (node left value (node l v r)) = BareLast (node l v r) := rfl
      rw [hcut, hbare, ← ih TreeNode.noConfusion]
      generalize cutLast (node l v r) = c
      generalize node l v r = below
      simp [inorder]

theorem replaceNode_inorder (left : TreeNode) (value : Int) (right : TreeNode) :
    (replaceNode (node left value right)).2.inorder ++ [(replaceNode (node left value right)).1] =
      (node left value right).inorder ↔ BareLast right := by
  cases right with
  | null => simp [replaceNode, inorder, BareLast]
  | node l v r =>
    have hcut : replaceNode (node left value (node l v r)) =
        ((cutLast (node l v r)).1, node left value (cutLast (node l v r)).2) := rfl
    have hlast : BareLast (node l v r) ↔ _ := (cutLast_inorder TreeNode.noConfusion).symm
    rw [hcut, hlast]
    generalize cutLast (node l v r) = c
    generalize node l v r = below
    simp [inorder]

theorem erase_of_sorted {l r : List Int} {value : Int}
    (h : (l ++ value :: r).Pairwise (· ≤ ·)) : (l ++ value :: r).erase value = l ++ r := by
  have hp : ((l ++ value :: r).erase value).Perm (l ++ r) := by
    have hm : (l ++ value :: r).Perm (value :: (l ++ r)) := List.perm_middle
    have he := hm.erase value
    rwa [List.erase_cons_head] at he
  refine hp.eq_of_pairwise (fun a b _ _ hab hba => le_antisymm hab hba)
    (h.sublist List.erase_sublist) (h.sublist ?_)
  exact (List.append_sublist_append_left l).mpr (List.sublist_cons_self value r)

theorem deletesOne_of_found {value : Int} {t l r : TreeNode} {fs : List Frame}
    (hs : t.inorder.Pairwise (· ≤ ·)) (hplug : plug fs (node l value r) = t) {after? : Option TreeNode}
    (hd : delete value t = (0, after?)) :
    DeletesOne value t ↔ ∃ t', after? = some t' ∧
      t'.inorder = before fs ++ (l.inorder ++ r.inorder) ++ after fs := by
  have hin : t.inorder = (before fs ++ l.inorder) ++ value :: (r.inorder ++ after fs) := by
    rw [← hplug, inorder_plug, inorder]
    simp
  have herase : t.inorder.erase value = before fs ++ (l.inorder ++ r.inorder) ++ after fs := by
    rw [hin, erase_of_sorted (hin ▸ hs)]
    simp
  rw [DeletesOne, hd, herase]
  refine and_iff_right ⟨fun _ => ?_, fun _ => rfl⟩
  rw [hin]
  exact List.mem_append_right _ List.mem_cons_self

/-- One call of `Delete` on a sorted tree is right just when the value is
deletable there. -/
theorem deletesOne_iff {value : Int} {t : TreeNode} (hs : t.inorder.Pairwise (· ≤ ·)) :
    DeletesOne value t ↔ Deletable value t := by
  cases hsearch : subSearch value [] t with
  | none =>
    have hnot := subSearch_none hs hsearch
    simp only [DeletesOne, Deletable, delete, hsearch, iff_true]
    exact ⟨⟨fun h => absurd h (by decide), fun h => absurd h hnot⟩, t, rfl,
      (List.erase_of_not_mem hnot).symm⟩
  | some found =>
    obtain ⟨fs, p⟩ := found
    obtain ⟨⟨l, r, rfl⟩, hplug, htoward⟩ := subSearch_some (by simp) hsearch
    -- a node with a child at most is replaced by that child
    have hone : ∀ child, delete value t = (0, unlink fs (node l value r) value child) →
        child.inorder = l.inorder ++ r.inorder → (DeletesOne value t ↔ fs ≠ []) := by
      intro child hd hchild
      rw [deletesOne_of_found hs hplug hd, unlink_eq htoward]
      cases fs with
      | nil => simp
      | cons f fs =>
        simp only [List.cons_ne_nil, if_false, Option.some.injEq, ne_eq, not_false_eq_true, iff_true]
        exact ⟨_, rfl, by rw [inorder_plug, hchild]⟩
    cases l with
    | null =>
      have hdel : Deletable value t ↔ fs ≠ [] := by simp only [Deletable, hsearch]
      rw [hdel]
      cases r with
      | null => exact hone null (by simp only [delete, hsearch]) rfl
      | node rl rv rr => exact hone (node rl rv rr) (by simp only [delete, hsearch]) rfl
    | node ll lv lr =>
      cases r with
      | null =>
        have hdel : Deletable value t ↔ fs ≠ [] := by simp only [Deletable, hsearch]
        rw [hdel]
        exact hone (node ll lv lr) (by simp only [delete, hsearch]) (List.append_nil _).symm
      | node rl rv rr =>
        have hdel : Deletable value t ↔ BareLast lr := by simp only [Deletable, hsearch]
        have hd : delete value t = (0, some (plug fs (node (replaceNode (node ll lv lr)).2
            (replaceNode (node ll lv lr)).1 (node rl rv rr)))) := by
          simp only [delete, hsearch]
        rw [hdel, deletesOne_of_found hs hplug hd, ← replaceNode_inorder ll lv lr]
        simp only [Option.some.injEq, exists_eq_left', inorder_plug, List.append_left_inj,
          List.append_right_inj]
        generalize replaceNode (node ll lv lr) = c
        generalize node ll lv lr = left
        generalize node rl rv rr = right
        rw [inorder, List.append_cons, List.append_left_inj]

-- ---------------------------------------------------------------------------
-- Runs
-- ---------------------------------------------------------------------------

theorem inorder_insert_perm (value : Int) (t : TreeNode) :
    (t.insert value).inorder.Perm (value :: t.inorder) := by
  induction t with
  | null => exact .refl _
  | node left v right ihl ihr =>
    rw [TreeNode.insert]
    split
    · exact ihl.append_right (v :: right.inorder)
    · exact ((ihr.cons v).append_left left.inorder).trans
        (((List.Perm.swap value v right.inorder).append_left left.inorder).trans List.perm_middle)

theorem sorted_insert {value : Int} {t : TreeNode} (hs : t.inorder.Pairwise (· ≤ ·)) :
    (t.insert value).inorder.Pairwise (· ≤ ·) := by
  induction t with
  | null => exact List.pairwise_singleton _ _
  | node left v right ihl ihr =>
    obtain ⟨hl, hr, hlr⟩ := List.pairwise_append.mp hs
    obtain ⟨hv, hr⟩ := List.pairwise_cons.mp hr
    rw [TreeNode.insert]
    split
    · rename_i hlt
      refine List.pairwise_append.mpr ⟨ihl hl, List.pairwise_cons.mpr ⟨hv, hr⟩, ?_⟩
      intro x hx y hy
      rcases List.mem_cons.mp ((inorder_insert_perm value left).mem_iff.mp hx) with rfl | hx
      · rcases List.mem_cons.mp hy with rfl | hy
        · exact hlt.le
        · exact hlt.le.trans (hv y hy)
      · exact hlr x hx y hy
    · rename_i hle
      have hle : v ≤ value := not_lt.mp hle
      have hin : ∀ y, y ∈ (right.insert value).inorder ↔ y ∈ value :: right.inorder := fun y =>
        (inorder_insert_perm value right).mem_iff
      refine List.pairwise_append.mpr ⟨hl, List.pairwise_cons.mpr ⟨fun y hy => ?_, ihr hr⟩, ?_⟩
      · rcases List.mem_cons.mp ((hin y).mp hy) with rfl | hy
        · exact hle
        · exact hv y hy
      · intro x hx y hy
        have hxv := hlr x hx v List.mem_cons_self
        rcases List.mem_cons.mp hy with rfl | hy
        · exact hxv
        · rcases List.mem_cons.mp ((hin y).mp hy) with rfl | hy
          · exact hxv.trans hle
          · exact hxv.trans (hv y hy)

theorem inorder_insert {value : Int} {t : TreeNode} (hs : t.inorder.Pairwise (· ≤ ·)) :
    (t.insert value).inorder = t.inorder.orderedInsert (· ≤ ·) value :=
  ((inorder_insert_perm value t).trans (List.perm_orderedInsert _ value _).symm).eq_of_pairwise
    (fun _ _ _ _ hab hba => le_antisymm hab hba) (sorted_insert hs) (hs.orderedInsert value _)

def AllDeletable (calls : List Call) : Prop :=
  ∀ done value rest t, calls = done ++ .delete value :: rest → run done = some t →
    Deletable value t

/-- After calls whose deletions met the condition the tree holds the stored
values in order, and the next deletion is right just when it meets it too. -/
theorem deletesOne_run (calls : List Call) (h : AllDeletable calls) :
    ∃ t, run calls = some t ∧ t.inorder = stored calls ∧ (stored calls).Pairwise (· ≤ ·) ∧
      ∀ value, DeletesOne value t ↔ Deletable value t := by
  induction calls using List.reverseRecOn with
  | nil => exact ⟨null, rfl, rfl, .nil, fun value => deletesOne_iff .nil⟩
  | append_singleton calls call ih =>
    obtain ⟨t, hrun, hin, hs, -⟩ := ih fun done value rest t he hr =>
      h done value (rest ++ [call]) t (by rw [he]; simp) hr
    have hsorted : t.inorder.Pairwise (· ≤ ·) := hin ▸ hs
    have hstep : run (calls ++ [call]) = call.exec (some t) := by
      rw [← hrun, run, run, List.foldl_append]
      rfl
    have hstored : stored (calls ++ [call]) = call.apply t.inorder := by
      rw [hin, stored, stored, List.foldl_append]
      rfl
    rw [hstep, hstored]
    cases call with
    | insert value =>
      refine ⟨t.insert value, rfl, inorder_insert hsorted, hsorted.orderedInsert value _, ?_⟩
      exact fun value => deletesOne_iff (sorted_insert hsorted)
    | delete value =>
      have hd := h calls value [] t rfl hrun
      obtain ⟨-, t', ht', hin'⟩ := (deletesOne_iff hsorted).mpr hd
      refine ⟨t', ht', hin', hsorted.sublist List.erase_sublist, fun value => deletesOne_iff ?_⟩
      rw [hin']
      exact hsorted.sublist List.erase_sublist

/-- Deleting 3 from 5, 3 and 8. -/
theorem deletesOne_run_three : ∃ t, run [.insert 5, .insert 3, .insert 8, .delete 3] = some t ∧
    t.inorder = stored [.insert 5, .insert 3, .insert 8, .delete 3] := by
  have hall : AllDeletable [.insert 5, .insert 3, .insert 8, .delete 3] := by
    intro done value rest t he hr
    rcases done with _ | ⟨c₁, _ | ⟨c₂, _ | ⟨c₃, _ | ⟨c₄, done⟩⟩⟩⟩ <;> simp at he
    obtain ⟨rfl, rfl, rfl, rfl, -⟩ := he
    obtain rfl := Option.some.inj hr
    exact List.cons_ne_nil _ _
  obtain ⟨t, ht, hin, -⟩ := deletesOne_run _ hall
  exact ⟨t, ht, hin⟩

/-- `root_` still points to the only node when that is freed, and 7 is lost with
the predecessor of 10. -/
theorem delete_loses : (∃ t, run [.insert 5] = some t ∧ ¬ DeletesOne 5 t) ∧
    ∃ t, run [.insert 10, .insert 5, .insert 12, .insert 8, .insert 7] = some t ∧
      ¬ DeletesOne 10 t := by
  refine ⟨⟨node null 5 null, rfl, ?_⟩,
    ⟨node (node null 5 (node (node null 7 null) 8 null)) 10 (node null 12 null), rfl, ?_⟩⟩
  · rintro ⟨-, t', ht', -⟩
    cases ht'
  · rintro ⟨-, t', ht', hin⟩
    obtain rfl := Option.some.inj ht'
    exact absurd hin (by decide)

end TextMining.BinarySearchTree
