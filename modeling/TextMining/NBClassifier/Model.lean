import TextMining.Lib.Codec
import TextMining.Lib.HashMap
import TextMining.Lib.OrdMap
import TextMining.AhoCorasick.Model

/-!
# The state of the classifier

The members of `NBClassifier` that training, dumping and prediction use, and
`LoadClassTree`. Which copy of `CStringTool` is linked, `hashlittle` and
`is_digit` are left open. The members that only log lines read are left out.
-/

namespace TextMining.NBClassifier

/-- The functions of other libraries; `hashlittle` is applied with its seed. -/
structure Env where
  hashlittle : List UInt8 → UInt32
  spliteByChar : List UInt8 → UInt8 → List (List UInt8)
  isDigit : List UInt8 → Bool

/-- `TermInfo`; `termstr` is the C string in the array. -/
structure TermInfo where
  idf : Int32
  df : Int32
  totalClassItemDf : Int32
  termstr : List UInt8
  classDf : OrdMap Int32 Int32
  classItemDf : OrdMap Int32 Int32

structure ClassNode where
  level : Int32
  id : Int32
  fatherId : Int32
  foreignId : Int32
  termNum : Int32
  trainDataNum : Int32
  leafNum : Int32
  sonMaxTrainDataNum : Int32
  sons : List Int32
  tagMapAC : OrdMap (List UInt8) AhoCorasick

def ClassNode.new (id level fatherId foreignId : Int32) : ClassNode :=
  ⟨level, id, fatherId, foreignId, 0, 0, 0, 0, [], .empty⟩

abbrev ClassMap := OrdMap Int32 ClassNode

structure State where
  classNameMap : OrdMap Int32 (List UInt8)
  classIdMapReverse : HashMap UInt32 UInt32
  classNodeMap : ClassMap
  tagNameMap : OrdMap Int32 (List UInt8)
  tagKeyMap : OrdMap Int32 (List UInt8)
  termHashMap : HashMap UInt32 UInt32
  mNBTerms : List TermInfo
  totalClassNum : Int32
  totalTermNum : Int64
  totalLearningItemNum : Int32
  totalTermHashNum : Int32

def State.init : State :=
  { classNameMap := OrdMap.empty.insert 0 (text "Root")
    classIdMapReverse := ∅
    classNodeMap := OrdMap.empty.insert 0 (.new 0 0 (-1) 0)
    tagNameMap := .empty
    tagKeyMap := .empty
    termHashMap := ∅
    mNBTerms := []
    totalClassNum := 0
    totalTermNum := 0
    totalLearningItemNum := 0
    totalTermHashNum := 0 }

def ClassMap.node (m : ClassMap) (id : Int32) : ClassNode := (m.lookup id).getD (.new 0 0 0 0)

namespace State

def node (s : State) (id : Int32) : ClassNode := ClassMap.node s.classNodeMap id

def className (s : State) (id : Int32) : List UInt8 := (s.classNameMap.lookup id).getD []

end State

-- ---------------------------------------------------------------------------
-- The class tree
-- ---------------------------------------------------------------------------

/-- A line of the file, with the values of the `int` that a failed read of each
of its columns leaves unset. -/
structure TreeLine where
  line : List UInt8
  unset : Nat → Int32

structure ClassRow where
  classId : Int32
  level : Int32
  fatherId : Int32
  name : List UInt8
  foreignId : Int32

section
variable (env : Env)

/-- What a line says, unless it is empty, a comment or malformed. -/
def TreeLine.row (l : TreeLine) : Option ClassRow :=
  if l.line = [] ∨ l.line.head? = some 35 then none
  else
    match env.spliteByChar l.line 9 with
    | [classId, level, fatherId, name, foreignId] =>
      some
        { classId := (readInt classId).getD (l.unset 0)
          level := (readInt level).getD (l.unset 1)
          fatherId := (readInt fatherId).getD (l.unset 2)
          name := name
          foreignId := (readInt foreignId).getD (l.unset 3) }
    | _ => none

def State.loadRow (s : State) (row : ClassRow) : State :=
  if row.classId ∈ s.classNodeMap then s
  else if row.fatherId ∉ s.classNodeMap then s
  else
    let node := ClassNode.new row.classId row.level row.fatherId row.foreignId
    { s with
      classNameMap := s.classNameMap.insert row.classId row.name
      classIdMapReverse :=
        s.classIdMapReverse.insert row.foreignId.toUInt32 row.classId.toUInt32
      classNodeMap := (s.classNodeMap.insert row.classId node).modify row.fatherId fun n =>
        { n with sons := n.sons ++ [row.classId] }
      totalClassNum := s.totalClassNum + 1 }

/-- The loop from a leaf to the root; `none` when the fuel runs out. -/
def leafLoop : Nat → Int32 → ClassMap → Option ClassMap
  | fuel, father, m =>
    if 0 < father then
      match fuel with
      | 0 => none
      | fuel + 1 =>
        let m := m.modify father fun n => { n with leafNum := n.leafNum + 1 }
        leafLoop fuel (ClassMap.node m father).fatherId m
    else some m

def countLeaves (m : ClassMap) : Option ClassMap :=
  m.entries.foldlM (fun n e => if e.2.sons = [] then leafLoop m.size e.1 n else some n) m

def loadClassTree (lines : List TreeLine) : Option State :=
  let s := (lines.filterMap (TreeLine.row env)).foldl State.loadRow State.init
  (countLeaves s.classNodeMap).map fun m => { s with classNodeMap := m }

end

end TextMining.NBClassifier
