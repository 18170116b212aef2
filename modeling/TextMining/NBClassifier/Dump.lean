import TextMining.Lib.Feof
import TextMining.NBClassifier.Train

/-!
# Training a model, writing it and reading it back

`GetNBModel`, `DumpNBModel` and `LoadNBModel`, when every file operation
succeeds. Lines that only log are left out.
-/

namespace TextMining.NBClassifier

-- ---------------------------------------------------------------------------
-- Training
-- ---------------------------------------------------------------------------

/-- `SetMaxTrainDataNum`; `none` when it exits, reads behind an empty vector or
runs out of fuel. -/
def setMaxTrainDataNum : Nat → List Int32 → ClassMap → Option ClassMap
  | 0, _, _ => none
  | _, [], _ => none
  | fuel + 1, ids@(first :: _), m =>
    let fatherId := (ClassMap.node m first).fatherId
    if ∃ id ∈ ids, (ClassMap.node m id).fatherId ≠ fatherId then none
    else
      let maxTrainDataNum := ids.foldl (fun num id =>
        if num < (ClassMap.node m id).trainDataNum then (ClassMap.node m id).trainDataNum else num) 0
      let m := m.modify fatherId fun n => { n with sonMaxTrainDataNum := maxTrainDataNum }
      ids.foldlM (fun m id =>
        if (ClassMap.node m id).sons = [] then some m
        else setMaxTrainDataNum fuel (ClassMap.node m id).sons m) m

namespace State

def calcTermIdf (s : State) : State :=
  { s with mNBTerms := s.mNBTerms.map fun t =>
      { t with idf := (1.0 + (s.totalTermNum.toFloat / t.df.toFloat).log2).toInt32 } }

def getNBModel (env : Env) (s : State) (cfg : TrainConfig) (lines : List TrainLine) :
    Option State :=
  let s := (s.train env cfg lines).calcTermIdf
  (setMaxTrainDataNum s.classNodeMap.size (s.node 0).sons s.classNodeMap).map fun m =>
    { s with classNodeMap := m }

end State

-- ---------------------------------------------------------------------------
-- Writing
-- ---------------------------------------------------------------------------

structure ModelFiles where
  classnode : List UInt8
  term : List UInt8
  termHash : List UInt8
  total : List UInt8

def ClassNode.record (e : Int32 × ClassNode) : List UInt8 :=
  writeI32 e.1 ++ writeI32 e.2.termNum ++ writeI32 e.2.trainDataNum ++
    writeI32 e.2.sonMaxTrainDataNum

def pairsRecord (m : OrdMap Int32 Int32) : List UInt8 :=
  writeI32 (Int32.ofNat m.size) ++ m.entries.flatMap fun e => writeI32 e.1 ++ writeI32 e.2

def TermInfo.record (junk : List UInt8) (t : TermInfo) : List UInt8 :=
  charArray 80 junk (snprintf 80 t.termstr) ++ writeI32 t.idf ++ writeI32 t.df ++
    writeI32 t.totalClassItemDf ++ pairsRecord t.classDf ++ pairsRecord t.classItemDf

def hashRecord (e : Σ _ : UInt32, UInt32) : List UInt8 := writeU32 e.1 ++ writeU32 e.2

def State.totalInfo (s : State) : List UInt8 :=
  text "TotalClassNum:" ++ decimalInt s.totalClassNum.toInt ++
    text "\nTotalTermNum:" ++ decimalInt s.totalTermNum.toInt ++
    text "\nTotalLearningItemNum:" ++ decimalInt s.totalLearningItemNum.toInt ++
    text "\nTotalTermHashNum:" ++ decimalInt s.totalTermHashNum.toInt

/-- `ord` visits `TermHashMap`; `junk i` lies behind the `i`-th term in its array. -/
def State.dumpNBModel (s : State) (ord : IterOrder UInt32 UInt32) (junk : Nat → List UInt8) :
    ModelFiles :=
  { classnode := s.classNodeMap.entries.flatMap ClassNode.record
    term := s.mNBTerms.zipIdx.flatMap fun e => e.1.record (junk e.2)
    termHash := (ord.walk 0 s.termHashMap).flatMap hashRecord
    total := snprintf 1024 s.totalInfo }

-- ---------------------------------------------------------------------------
-- Reading
-- ---------------------------------------------------------------------------

/-- What the variables of one run of the loop over the terms hold before they
are read: the string in `term`, the numbers, and the pair of each run of the
inner loops. -/
structure TermUnset where
  term : List UInt8
  idf : Int32
  df : Int32
  totalClassItemDf : Int32
  classDfNum : Int32
  classDf : Nat → Int32 × Int32
  classItemDf : Nat → Int32 × Int32

/-- What the variables of `LoadNBModel` hold before they are read. -/
structure Unset where
  terms : Nat → TermUnset
  key : UInt32
  value : UInt32
  buf : List UInt8
  totalClassNum : Int32
  totalTermNum : Int64
  totalLearningItemNum : Int32
  totalTermHashNum : Int32

def loadClassNode (f : InFile) (m : ClassMap) : Option (InFile × ClassMap) :=
  let (classId, f) := f.read readI32 0
  if classId ∉ m then none
  else
    let n := ClassMap.node m classId
    let (termNum, f) := f.read readI32 n.termNum
    let (trainDataNum, f) := f.read readI32 n.trainDataNum
    let (sonMaxTrainDataNum, f) := f.read readI32 n.sonMaxTrainDataNum
    some (f, m.modify classId fun n => { n with termNum, trainDataNum, sonMaxTrainDataNum })

/-- A loop over `n` pairs, from the run `i` on. -/
def loadPairs (unset : Nat → Int32 × Int32) :
    Nat → Nat → InFile → OrdMap Int32 Int32 → OrdMap Int32 Int32 × InFile
  | 0, _, f, m => (m, f)
  | n + 1, i, f, m =>
    let (tmp1, f) := f.read readI32 (unset i).1
    let (tmp2, f) := f.read readI32 (unset i).2
    loadPairs unset n (i + 1) f (m.insertNew tmp1 tmp2)

def loadTermInfo (unset : TermUnset) (f : InFile) : TermInfo × InFile :=
  let (term, f) := f.read (readItem 80) unset.term
  let (idf, f) := f.read readI32 unset.idf
  let (df, f) := f.read readI32 unset.df
  let (totalClassItemDf, f) := f.read readI32 unset.totalClassItemDf
  let (classDfNum, f) := f.read readI32 unset.classDfNum
  let (classDf, f) := loadPairs unset.classDf classDfNum.toInt.toNat 0 f .empty
  let (classDfNum, f) := f.read readI32 classDfNum
  let (classItemDf, f) := loadPairs unset.classItemDf classDfNum.toInt.toNat 0 f .empty
  (⟨idf, df, totalClassItemDf, snprintf 80 term, classDf, classItemDf⟩, f)

def loadTerm (unset : Nat → TermUnset) (f : InFile) (terms : List TermInfo) :
    Option (InFile × List TermInfo) :=
  let (info, f) := loadTermInfo (unset terms.length) f
  some (f, terms ++ [info])

/-- The variables of the loop over the hashes. -/
structure HashVars where
  key : UInt32
  value : UInt32
  termHashMap : HashMap UInt32 UInt32

def loadHash (f : InFile) (v : HashVars) : Option (InFile × HashVars) :=
  let (key, f) := f.read readU32 v.key
  let (value, f) := f.read readU32 v.value
  some (f, ⟨key, value, v.termHashMap.insert key value⟩)

def infoField (line : List UInt8) : Option (List UInt8) :=
  match line.splitOn 58 with
  | [_, value] => some value
  | _ => none

/-- Enough fuel for every loop over a file: each run but the last reads a byte. -/
def loopFuel (file : List UInt8) : Nat := file.length + 2

/-- `LoadNBModel`; `none` for -1. -/
def State.loadNBModel (s : State) (unset : Unset) (files : ModelFiles) : Option State := do
  let classNodeMap ←
    feofLoop loadClassNode (loopFuel files.classnode) ⟨files.classnode, false⟩ s.classNodeMap
  let mNBTerms ←
    feofLoop (loadTerm unset.terms) (loopFuel files.term) ⟨files.term, false⟩ s.mNBTerms
  let vars ← feofLoop loadHash (loopFuel files.termHash) ⟨files.termHash, false⟩
    ⟨unset.key, unset.value, s.termHashMap⟩
  let (buf, total) := fgets 128 unset.buf files.total
  let totalClassNum := (readInt (← infoField buf)).getD unset.totalClassNum
  let (buf, total) := fgets 128 buf total
  let totalTermNum := (readLong (← infoField buf)).getD unset.totalTermNum
  let (buf, total) := fgets 128 buf total
  let totalLearningItemNum := (readInt (← infoField buf)).getD unset.totalLearningItemNum
  let (buf, _) := fgets 128 buf total
  let totalTermHashNum := (readInt (← infoField buf)).getD unset.totalTermHashNum
  some { s with
    classNodeMap, mNBTerms, totalClassNum, totalTermNum, totalLearningItemNum, totalTermHashNum,
    termHashMap := vars.termHashMap }

end TextMining.NBClassifier
