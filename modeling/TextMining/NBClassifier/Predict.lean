import TextMining.AhoCorasick.Offsets
import TextMining.NBClassifier.Cache
import TextMining.NBClassifier.Score
import Mathlib.Data.Int.Order.Basic

/-!
# Predicting an item

`NBPredictLine` on a line with all fields: the cache first, then the class from
the words of the item and the tags of the class that its text has. The
perceptual tags and the output of a test run are switched off.
-/

namespace TextMining.NBClassifier

-- ---------------------------------------------------------------------------
-- Fields
-- ---------------------------------------------------------------------------

namespace PDataField

def cid : Nat := 19
def name : Nat := 2
def cate : Nat := 6
def desc : Nat := 14
def attr : Nat := 15

end PDataField

/-- The functions of other libraries that a prediction calls. The words are
those that the segmenter counts; the category is that of a JSON object. -/
structure Readers where
  env : Env
  segment : List UInt8 → List (List UInt8)
  miniKNN : List UInt8 → List UInt8 → Int32
  category : List UInt8 → Option (List UInt8)

structure Settings where
  fieldNeedToPredict : Int32
  needMiniKNN : Int32
  dataSourceType : Int32

section
variable (readers : Readers) (settings : Settings)

def strClassNeeded (row : Row UInt8) : List UInt8 :=
  if settings.fieldNeedToPredict = 1 then row.field PDataField.name
  else if settings.fieldNeedToPredict = 2 then
    row.field PDataField.cate ++ row.field PDataField.name
  else if settings.fieldNeedToPredict = 3 then
    row.field PDataField.cate ++ row.field PDataField.name ++
      (readers.category (row.field PDataField.attr)).getD []
  else
    row.field PDataField.cate ++ row.field PDataField.name ++ row.field PDataField.desc

def strTagNeeded (row : Row UInt8) : List UInt8 :=
  row.field PDataField.cate ++ row.field PDataField.name ++ row.field PDataField.desc

-- ---------------------------------------------------------------------------
-- The class
-- ---------------------------------------------------------------------------

/-- How often each word occurs that is not too short and no number. -/
def localTermCount (words : List (List UInt8)) : OrdMap (List UInt8) Int32 :=
  words.foldl (fun count word =>
    if word.length ≤ 3 ∨ readers.env.isDigit word then count
    else count.insert word ((count.lookup word).getD 0 + 1)) .empty

def State.knnClass (s : State) (row : Row UInt8) : Int32 :=
  if settings.needMiniKNN = 1 then
    let foreignId := readers.miniKNN (row.field PDataField.cid) (row.field PDataField.cate)
    if 0 < foreignId then ((s.classIdMapReverse.lookup foreignId.toUInt32).getD 0).toInt32 else 0
  else 0

def State.bestSon (s : State) (words : List (List UInt8 × Int32)) (sons : List Int32) : Int32 :=
  (sons.foldl (fun (best : Int32 × Float32) classId =>
    let score := s.classScore readers.env words classId
    if best.2 < score then (classId, score) else best) (0, 0)).1

def State.descend (s : State) (words : List (List UInt8 × Int32)) : Nat → Int32 → Option Int32
  | fuel, maxId =>
    if (s.node maxId).sons = [] then some maxId
    else
      match fuel with
      | 0 => none
      | fuel + 1 =>
        let maxId := s.bestSon readers words (s.node maxId).sons
        if maxId = 0 then some 0 else descend s words fuel maxId

end

namespace State

def treeLoop (s : State) (part : Int32 → List UInt8) : Nat → Int32 → List (List UInt8) → List (List UInt8)
  | 0, _, tree => tree
  | count + 1, id, tree =>
    if 0 < id then s.treeLoop part count (s.node id).fatherId (part id :: tree) else tree

def classTreeText (s : State) (part : Int32 → List UInt8) (classId : Int32) : List UInt8 :=
  [58].intercalate (s.treeLoop part 10 classId [])

def getClassNameTree (s : State) (classId : Int32) : List UInt8 := s.classTreeText s.className classId

def getClassIdTree (s : State) (classId : Int32) : List UInt8 :=
  s.classTreeText (fun id => decimalInt id.toInt) classId

def getClassFIdTree (s : State) (classId : Int32) : List UInt8 :=
  s.classTreeText (fun id => decimalInt (s.node id).foreignId.toInt) classId

-- ---------------------------------------------------------------------------
-- Tags
-- ---------------------------------------------------------------------------

def tagName (s : State) (id : Int) : List UInt8 := (s.tagNameMap.lookup (Int32.ofInt id)).getD []

def tagKey (s : State) (id : Int) : List UInt8 := (s.tagKeyMap.lookup (Int32.ofInt id)).getD []

end State

abbrev TagMap := OrdMap (List UInt8) (OrdMap Int Nat)

/-- The word for brand. -/
def brandWord : List UInt8 := [0xe5, 0x93, 0x81, 0xe7, 0x89, 0x8c]

/-- The word for gender. -/
def genderWord : List UInt8 := [0xe6, 0x80, 0xa7, 0xe5, 0x88, 0xab]

def SingleValued (key : List UInt8) : Prop := brandWord <:+: key ∨ genderWord <:+: key

instance instDecidableSingleValued (key : List UInt8) : Decidable (SingleValued key) :=
  inferInstanceAs (Decidable (_ ∨ _))

namespace State

def firstOffset (tags : OrdMap Int Nat) : Nat := (tags.entries.head?.map Prod.snd).getD 0

def selectTag (s : State) (key : List UInt8) (allTags : TagMap) (found : Int × Nat) : TagMap :=
  if (s.tagName found.1).length ≤ 2 then allTags
  else
    match allTags.lookup key with
    | none => allTags.insert key (OrdMap.empty.insert found.1 found.2)
    | some tags =>
      if SingleValued key then
        if found.2 < firstOffset tags then
          allTags.insert key (OrdMap.empty.insert found.1 found.2)
        else allTags
      else allTags.insert key (tags.insert found.1 found.2)

def selectTags (s : State) (node : ClassNode) (str : List UInt8) : Option TagMap :=
  node.tagMapAC.entries.foldlM (fun allTags e =>
    if text "eyword" <:+: e.1 then some allTags
    else (e.2.getMatchOff str).map fun found => found.pairs.foldl (s.selectTag e.1) allTags) .empty

end State

/-- The columns of the tags. -/
structure TagColumns where
  allIdOut : List UInt8
  allNameOut : List UInt8
  brandOut : List UInt8
  brandName : List UInt8

namespace State

/-- A tag of a key; those of the first key are written over what is there. -/
def outputTag (s : State) (key : List UInt8) (first : Bool) (out : TagColumns) (tag : Int × Nat) :
    TagColumns :=
  let id := decimalInt tag.1
  let name := s.tagKey tag.1 ++ 58 :: s.tagName tag.1
  let out :=
    if first then { out with allIdOut := id, allNameOut := name }
    else { out with
      allIdOut := out.allIdOut ++ 58 :: id
      allNameOut := out.allNameOut ++ 59 :: name }
  if brandWord <:+: key then { out with brandOut := id, brandName := s.tagName tag.1 } else out

def outputTags (s : State) (allTags : TagMap) : TagColumns :=
  allTags.entries.zipIdx.foldl (fun out e =>
    e.1.2.entries.foldl (s.outputTag e.1.1 (e.2 == 0)) out) ⟨[], [], [], []⟩

def profile (s : State) (classId : Int32) (tags : TagColumns) : List UInt8 :=
  [9].intercalate [s.getClassFIdTree classId, s.getClassNameTree classId, s.getClassIdTree classId,
    tags.allIdOut, tags.allNameOut, tags.brandOut, tags.brandName]

end State

-- ---------------------------------------------------------------------------
-- A line
-- ---------------------------------------------------------------------------

def failProfile : List UInt8 :=
  text "\t0\t" ++ [0xe5, 0x85, 0xb6, 0xe4, 0xbb, 0x96] ++ text "\t0\t0\t0\t0\t0"

inductive Prediction
  | noWords
  | fail
  | profile (outputProfile : List UInt8)
  deriving DecidableEq

def Prediction.output : Prediction → Option (List UInt8)
  | .noWords => none
  | .fail => some failProfile
  | .profile outputProfile => some outputProfile

structure ItemLine where
  line : List UInt8
  full : totalFieldNum ≤ (fieldsOf line).length

section
variable (readers : Readers) (settings : Settings) (s : State)

/-- `NBPredictLine` on a line that is not in the cache; `none` when it does not
end. -/
def State.classify (row : Row UInt8) : Option Prediction :=
  let segOut := readers.segment (strClassNeeded readers settings row)
  if segOut = [] then some .noWords
  else do
    let words := (localTermCount readers segOut).entries
    let maxId ← s.descend readers words s.classNodeMap.size (s.knnClass readers settings row)
    if maxId = 0 then some .fail
    else do
      let allTags ← s.selectTags (s.node maxId) (cstr (strTagNeeded row))
      some (.profile (s.profile maxId (s.outputTags allTags)))

def State.nbPredictLine (store : Store) (item : ItemLine) : Option (Store × Option (List UInt8)) :=
  match getDataFrmCache store item.line settings.dataSourceType with
  | some outputProfile => some (store, some outputProfile)
  | none => do
    let prediction ← s.classify readers settings (fieldsOf item.line)
    match prediction with
    | .profile outputProfile =>
      if settings.dataSourceType = 1 ∨ settings.dataSourceType = 2 then
        some (setDataCache store item.line settings.dataSourceType outputProfile, some outputProfile)
      else some (store, some outputProfile)
    | prediction => some (store, prediction.output)

def State.nbPredict : Store → List ItemLine → Option (List (Option (List UInt8)))
  | _, [] => some []
  | store, item :: items => do
    let (store, profile) ← s.nbPredictLine readers settings store item
    let profiles ← State.nbPredict store items
    some (profile :: profiles)

end

end TextMining.NBClassifier
