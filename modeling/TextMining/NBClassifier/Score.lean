import TextMining.Lib.Float
import TextMining.NBClassifier.Model

/-!
# Scores of a class

The score that `NBPredictLine` gives a class for the words of an item. The
cells of the table of a term and a class are `float` variables, but hold
integers; the arithmetic on them is single precision.
-/

namespace TextMining.NBClassifier

/-- `N` and the cells `N11`, `N10`, `N01` and `N00`. -/
structure Cells where
  n : Int
  n11 : Int
  n10 : Int
  n01 : Int
  n00 : Int
  deriving DecidableEq, Repr

/-- The cells for a term and a class with the given number of training items.
A class that is not in the map counts 0. -/
def TermInfo.cells (info : TermInfo) (totalLearningItemNum trainDataNum classId : Int32) : Cells :=
  let n11 := float ((info.classItemDf.lookup classId).getD 0).toInt
  let n10 := float (float info.totalClassItemDf.toInt - n11)
  let n01 := float (float trainDataNum.toInt - n11)
  let n := float totalLearningItemNum.toInt
  ⟨n, n11, n10, n01, float (float (float (n - n01) - n10) - n11)⟩

def getChiSquare (cells : Cells) : Float32 :=
  let n := Float32.ofInt cells.n
  let n11 := Float32.ofInt cells.n11
  let n10 := Float32.ofInt cells.n10
  let n01 := Float32.ofInt cells.n01
  let n00 := Float32.ofInt cells.n00
  let product := (n11 + n01) * (n11 + n10) * (n00 + n10) * (n00 + n01)
  if product == 0 then 0 else n * (n11 * n00 - n10 * n01).pow 2 / product

/-- The prior of a class, from the largest training number of its siblings and
its own. -/
def prior (sonMaxTrainDataNum trainDataNum : Int32) : Float32 :=
  let siblings := (1 + sonMaxTrainDataNum.toFloat).toFloat32
  let own := trainDataNum.toFloat32
  ((1 + siblings.toFloat) / (1 + own.toFloat)).toFloat32

def termScore (info : TermInfo) (count classId : Int32) (cells : Cells) (prior : Float32) :
    Float32 :=
  let tf := (((info.classDf.lookup classId).getD 0 * count).toFloat32 * prior).toInt32
  (1 + (1 + tf).toFloat32.log2) * info.idf.toFloat32 *
    (1 + (1 + getChiSquare cells).log2.toFloat).toFloat32

/-- `term_score` of `GetTopNClass`, which has no prior. -/
def topNTermScore (info : TermInfo) (count classId : Int32) (cells : Cells) : Float32 :=
  let tf := (info.classDf.lookup classId).getD 0 * count
  (1 + (1 + tf).toFloat32.log2) * info.idf.toFloat32 *
    (1 + (1 + getChiSquare cells).log2.toFloat).toFloat32

variable (env : Env)

def State.classScore (s : State) (words : List (List UInt8 × Int32)) (classId : Int32) : Float32 :=
  let node := s.node classId
  let prior := prior (s.node node.fatherId).sonMaxTrainDataNum node.trainDataNum
  words.foldl (fun score word =>
    if word.1.length ≤ 3 then score
    else
      match s.termHashMap.lookup (env.hashlittle word.1) with
      | none => score
      | some index =>
        match s.mNBTerms[index.toNat]? with
        | none => score
        | some info =>
          let cells := info.cells s.totalLearningItemNum node.trainDataNum classId
          score + termScore info word.2 classId cells prior) 0

def State.topNClassScore (s : State) (currentScore : Float32) (terms : List (List UInt8 × Int32))
    (classId : Int32) : Float32 :=
  terms.foldl (fun score term =>
    match s.termHashMap.lookup (env.hashlittle term.1) with
    | none => score
    | some index =>
      match s.mNBTerms[index.toNat]? with
      | none => score
      | some info =>
        let cells := info.cells s.totalLearningItemNum (s.node classId).trainDataNum classId
        score + topNTermScore info term.2 classId cells) currentScore

end TextMining.NBClassifier
