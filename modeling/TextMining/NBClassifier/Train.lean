import TextMining.NBClassifier.Model

/-!
# Training

`GetNBFrmOriginalLine` and `AddWord`. What the segmenter finds in a line is
part of the line. An item is what a line adds once it has passed all checks.
-/

namespace TextMining.NBClassifier

structure TrainLine where
  line : List UInt8
  nameWords : List (List UInt8)
  tagWords : List (List UInt8)
  contentWords : List (List UInt8)

structure TrainConfig where
  sourceType : Int32
  needTagInModel : Int32
  needContentInModel : Int32

structure TrainItem where
  terms : OrdMap (List UInt8) Int32
  classes : List Int32

section
variable (env : Env)

/-- Words of up to 3 bytes and digits are left out. -/
def addWords (weight : Int32) (words : List (List UInt8)) (terms : OrdMap (List UInt8) Int32) :
    OrdMap (List UInt8) Int32 :=
  words.foldl (fun terms word =>
    if word.length ≤ 3 ∨ env.isDigit word = true then terms
    else
      match terms.lookup word with
      | none => terms.insert word weight
      | some n => terms.insert word (n + weight)) terms

def TrainLine.allTerms (cfg : TrainConfig) (l : TrainLine) : OrdMap (List UInt8) Int32 :=
  let terms := addWords env 2 l.nameWords .empty
  let terms := if cfg.needTagInModel = 1 then addWords env 2 l.tagWords terms else terms
  if cfg.needContentInModel = 1 then addWords env 1 l.contentWords terms else terms

namespace State

/-- The loop over the levels of a class column, from the classes to look among;
a level adds all classes of its name and goes on below the last of them. -/
def matchLevels (s : State) : List (List UInt8) → List Int32 → List Int32 → Option (List Int32)
  | [], _, classTree => some classTree
  | type :: types, classIds, classTree =>
    let found := classIds.filter fun id => type = s.className id
    let idFound := found.getLast?.getD 0
    if idFound = 0 then none
    else s.matchLevels types (s.node idFound).sons (classTree ++ found)

/-- What a line adds, unless one of the checks of `GetNBFrmOriginalLine` fails. -/
def trainItem (s : State) (cfg : TrainConfig) (l : TrainLine) : Option TrainItem :=
  match env.spliteByChar l.line 9 with
  | [types, _, _, _, _] =>
    if cfg.sourceType ≠ 0 then none
    else
      match s.matchLevels (env.spliteByChar types 58) (s.node 0).sons [] with
      | none => none
      | some classTree =>
        let allTerms := l.allTerms env cfg
        if allTerms.size = 0 then none else some ⟨allTerms, classTree⟩
  | _ => none

def bumpTermNum (m : ClassMap) (classTree : List Int32) : ClassMap :=
  classTree.foldl (fun m c => m.modify c fun n => { n with termNum := n.termNum + 1 }) m

def newTerm (classTree : List Int32) (term : List UInt8) (weight : Int32) : TermInfo :=
  { idf := 0
    df := weight
    totalClassItemDf := 1
    termstr := snprintf 80 term
    classDf := classTree.foldl (fun m c => m.insert c weight) .empty
    classItemDf := classTree.foldl (fun m c => m.insert c 1) .empty }

def countClass (weight : Int32) (info : TermInfo) (c : Int32) : TermInfo :=
  match info.classDf.lookup c with
  | none =>
    { info with
      classDf := info.classDf.insert c weight
      classItemDf := info.classItemDf.insert c 1 }
  | some n =>
    { info with
      classDf := info.classDf.insert c (n + weight)
      classItemDf := info.classItemDf.insert c ((info.classItemDf.lookup c).getD 0 + 1) }

def againTerm (classTree : List Int32) (weight : Int32) (info : TermInfo) : TermInfo :=
  classTree.foldl (countClass weight)
    { info with
      df := info.df + weight
      totalClassItemDf := info.totalClassItemDf + 1 }

def addTerm (classTree : List Int32) (s : State) (e : List UInt8 × Int32) : State :=
  let s := { s with totalTermNum := s.totalTermNum + e.2.toInt64 }
  let hashValue := env.hashlittle e.1
  match s.termHashMap.lookup hashValue with
  | none =>
    { s with
      termHashMap := s.termHashMap.insert hashValue s.totalTermHashNum.toUInt32
      totalTermHashNum := s.totalTermHashNum + 1
      mNBTerms := s.mNBTerms ++ [newTerm classTree e.1 e.2]
      classNodeMap := bumpTermNum s.classNodeMap classTree }
  | some index =>
    { s with
      mNBTerms := s.mNBTerms.modify index.toNat (againTerm classTree e.2)
      classNodeMap := bumpTermNum s.classNodeMap classTree }

def addWord (s : State) (allTerms : OrdMap (List UInt8) Int32) (classTree : List Int32) : State :=
  allTerms.entries.foldl (addTerm env classTree) s

/-- What is left of the function once an item is accepted. -/
def learn (s : State) (item : TrainItem) : State :=
  let s := s.addWord env item.terms item.classes
  { s with
    totalLearningItemNum := s.totalLearningItemNum + 1
    classNodeMap := item.classes.foldl
      (fun m c => m.modify c fun n => { n with trainDataNum := n.trainDataNum + 1 }) s.classNodeMap }

/-- The answer is `true` for 0. -/
def getNBFrmOriginalLine (s : State) (cfg : TrainConfig) (l : TrainLine) : Bool × State :=
  match s.trainItem env cfg l with
  | none => (false, s)
  | some item => (true, s.learn env item)

def accepted (s : State) (cfg : TrainConfig) : List TrainLine → List TrainItem
  | [] => []
  | l :: lines =>
    (s.trainItem env cfg l).toList ++ (s.getNBFrmOriginalLine env cfg l).2.accepted cfg lines

def train (s : State) (cfg : TrainConfig) (lines : List TrainLine) : State :=
  lines.foldl (fun s l => (s.getNBFrmOriginalLine env cfg l).2) s

end State

end

end TextMining.NBClassifier
