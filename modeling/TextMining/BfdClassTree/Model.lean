import TextMining.Lib.Forest
import TextMining.NBClassifier.Model

/-!
# The class tree with its tags

`BfdClassTree` reads the class tree as the classifier does and then the tags.
Each tag is inserted into the automaton of its key at its class and at every
class above; the automata are built once all tags are in. The root's leaf
number, which nothing sets, is 0 here.
-/

namespace TextMining.BfdClassTree

open NBClassifier (Env TreeLine ClassRow)

structure ClassNode where
  level : Int32
  id : Int32
  fatherId : Int32
  foreignId : Int32
  termNum : Int32
  leafNum : Int32
  sons : List Int32
  hashTags : OrdMap Int32 Bool
  tagMapAC : OrdMap (List UInt8) AhoCorasick

def ClassNode.new (id level fatherId foreignId : Int32) : ClassNode :=
  ⟨level, id, fatherId, foreignId, 0, 0, [], .empty, .empty⟩

def ClassNode.link (n : ClassNode) : Int32 × List Int32 := (n.fatherId, n.sons)

abbrev ClassMap := OrdMap Int32 ClassNode

structure State where
  classNameMap : OrdMap Int32 (List UInt8)
  classNodeMap : ClassMap
  tagNameMap : OrdMap Int32 (List UInt8)
  tagKeyMap : OrdMap Int32 (List UInt8)

def State.init : State where
  classNameMap := OrdMap.empty.insert 0 (text "Root")
  classNodeMap := OrdMap.empty.insert 0 (.new 0 0 (-1) 0)
  tagNameMap := .empty
  tagKeyMap := .empty

/-- The loops towards the root stop at an id that is not positive. -/
def above (id : Int32) : Bool := 0 < id

-- ---------------------------------------------------------------------------
-- Classes
-- ---------------------------------------------------------------------------

def State.loadRow (s : State) (row : ClassRow) : State :=
  if row.classId ∈ s.classNodeMap then s
  else if row.fatherId ∉ s.classNodeMap then s
  else
    { s with
      classNameMap := s.classNameMap.insert row.classId row.name
      classNodeMap := (s.classNodeMap.insert row.classId
        (.new row.classId row.level row.fatherId row.foreignId)).modify row.fatherId fun n =>
          { n with sons := n.sons ++ [row.classId] } }

def leafLoop (fuel : Nat) (father : Int32) (m : ClassMap) : Option ClassMap :=
  Forest.climb ClassNode.link above (fun n => { n with leafNum := n.leafNum + 1 }) fuel father m

def countLeaves (m : ClassMap) : Option ClassMap :=
  m.entries.foldlM (fun n e => if e.2.sons = [] then leafLoop m.size e.1 n else some n) m

def loadClassTree (env : Env) (lines : List TreeLine) : Option State :=
  let s := (lines.filterMap (TreeLine.row env)).foldl State.loadRow State.init
  (countLeaves s.classNodeMap).map fun m => { s with classNodeMap := m }

-- ---------------------------------------------------------------------------
-- Tags
-- ---------------------------------------------------------------------------

/-- A line of the tag file, with the values of the `int` that a failed read of
each of its columns leaves unset. -/
structure TagLine where
  line : List UInt8
  unset : Nat → Int32

structure TagRow where
  classId : Int32
  level : Int32
  tagId : Int32
  key : List UInt8
  tag : List UInt8

/-- What a line says, unless it is empty or has too few columns. -/
def TagLine.row (l : TagLine) : Option TagRow :=
  if l.line = [] then none
  else
    match l.line.splitOn 9 with
    | classId :: level :: tagId :: key :: tag :: _ =>
      some
        { classId := (readInt classId).getD (l.unset 0)
          level := (readInt level).getD (l.unset 1)
          tagId := (readInt tagId).getD (l.unset 2)
          key := key
          tag := tag }
    | _ => none

def ClassNode.addTag (row : TagRow) (n : ClassNode) : ClassNode :=
  if row.tagId ∈ n.hashTags then n
  else
    { n with
      tagMapAC := (n.tagMapAC.insertNew row.key AhoCorasick.clear).modify row.key fun ac =>
        ac.insert (cstr row.tag) row.tagId.toInt }

/-- The body of the loop over the lines; `none` when the walk to the root does
not end. -/
def State.loadTag (s : State) (row : TagRow) : Option State :=
  match s.classNodeMap.lookup row.classId with
  | none => some s
  | some n =>
    let m := s.classNodeMap.insert row.classId (n.addTag row)
    (Forest.climb ClassNode.link above (ClassNode.addTag row) m.size n.fatherId m).map fun m =>
      { s with
        classNodeMap := m
        tagNameMap := s.tagNameMap.insert row.tagId row.tag
        tagKeyMap := s.tagKeyMap.insert row.tagId row.key }

def ClassNode.build (n : ClassNode) : Option ClassNode :=
  (n.tagMapAC.updateAll AhoCorasick.buildAutomata).map fun tags => { n with tagMapAC := tags }

def State.loadTags (s : State) (lines : List TagLine) : Option State := do
  let s ← (lines.filterMap TagLine.row).foldlM State.loadTag s
  let m ← s.classNodeMap.updateAll ClassNode.build
  some { s with classNodeMap := m }

/-- `get_match`, which finds nothing where there is no automaton. -/
def matchTags (ac : Option AhoCorasick) (text : List UInt8) : Option (OrdSet Int) :=
  match ac with
  | none => some .empty
  | some ac => ac.getMatch text

def State.tagMatch (s : State) (classId : Int32) (key text : List UInt8) : Option (OrdSet Int) :=
  matchTags ((s.classNodeMap.lookup classId).bind fun n => n.tagMapAC.lookup key) text

end TextMining.BfdClassTree
