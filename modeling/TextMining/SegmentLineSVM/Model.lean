import TextMining.Lib.Codec
import TextMining.Lib.OrdMap
import TextMining.Lib.Provenance
import TextMining.Lib.Registry
import TextMining.Lib.Rows

/-!
# Training files for the SVM

`SegmentLine` cuts each line of a file into words and writes what it found to
four files; the dictionaries of the words and of the labels follow at the end.
A record of a file carries the number of the input line it is written for.
-/

namespace TextMining.SegmentLineSVM

open Provenance (origins)

structure Config where
  dataFormatSplit : Bool
  omitShortTerm : Bool
  omitDigitTerm : Bool
  isDigit : List UInt8 → Bool

/-- A line as `fgets` reads it, and what the segmenter makes of it. -/
structure Line where
  line : List UInt8
  wordCount : Int
  segOut : List (List UInt8)
  newWord : List (List UInt8 × Int32)
  lineBreak : 10 ∉ line.dropLast
  count : 0 < wordCount → wordCount = segOut.length

structure State where
  lineLabel : List UInt8
  wordNum : Nat
  labelNum : Nat
  globalWordId : HashMap (List UInt8) Nat
  labelId : HashMap (List UInt8) Nat
  output : List (Nat × List UInt8)
  outputHash : List (Nat × List (Int32 × Int32))
  labelOutput : List (Nat × Nat)
  newWordOutput : List (Nat × List (List UInt8 × Int32))

def State.init : State := ⟨[], 0, 0, ∅, ∅, [], [], [], []⟩

-- ---------------------------------------------------------------------------
-- The text of a record
-- ---------------------------------------------------------------------------

def pairText (key : List UInt8) (count : Int32) : List UInt8 :=
  key ++ text ":" ++ decimalInt count.toInt ++ text " "

def outputText (lineLabel : List UInt8) (wordInLine : OrdMap (List UInt8) Int32) : List UInt8 :=
  lineLabel ++ text "\t" ++ (wordInLine.entries.flatMap fun e => pairText e.1 e.2) ++ [10]

def hashText (entries : List (Int32 × Int32)) : List UInt8 :=
  (entries.flatMap fun e => pairText (decimalInt e.1.toInt) e.2) ++ [10]

def labelText (id : Nat) : List UInt8 := decimal id ++ [10]

def newWordText (words : List (List UInt8 × Int32)) : List UInt8 :=
  (words.flatMap fun e => pairText e.1 e.2) ++ [10]

-- ---------------------------------------------------------------------------
-- The loop over the lines
-- ---------------------------------------------------------------------------

/-- The label of a line; `none` for a format error. -/
def Line.label (cfg : Config) (lineLabel : List UInt8) (l : Line) : Option (List UInt8) :=
  if cfg.dataFormatSplit then
    match l.line.splitOn 9 with
    | [label, _, _, _, _] => some label
    | _ => none
  else some lineLabel

def Config.keeps (cfg : Config) (word : List UInt8) : Bool :=
  !((cfg.omitShortTerm && word.length ≤ 3) || (cfg.omitDigitTerm && cfg.isDigit word))

structure WordVars where
  globalWordId : HashMap (List UInt8) Nat
  wordNum : Nat
  wordInLine : OrdMap (List UInt8) Int32

def WordVars.addWord (v : WordVars) (word : List UInt8) : WordVars :=
  let v :=
    if word ∈ v.globalWordId then v
    else { v with globalWordId := v.globalWordId.insert word v.wordNum, wordNum := v.wordNum + 1 }
  if word ∈ v.wordInLine then { v with wordInLine := v.wordInLine.modify word (· + 1) }
  else { v with wordInLine := v.wordInLine.insert word 1 }

def wordHash (globalWordId : HashMap (List UInt8) Nat) (word : List UInt8) : Int32 :=
  Int32.ofNat ((globalWordId.lookup word).getD 0)

def hashEntries (globalWordId : HashMap (List UInt8) Nat) (wordInLine : OrdMap (List UInt8) Int32) :
    List (Int32 × Int32) :=
  let hashes := (wordInLine.entries.map fun e => wordHash globalWordId e.1).mergeSort
  let wordhashInLine : OrdMap Int32 Int32 :=
    wordInLine.entries.foldl (fun m e => m.insert (wordHash globalWordId e.1) e.2) .empty
  hashes.map fun id => (id, (wordhashInLine.lookup id).getD 0)

def State.writeWords (s : State) (k : Nat) (l : Line) (wordInLine : OrdMap (List UInt8) Int32) :
    State :=
  let s :=
    if s.lineLabel ∈ s.labelId then s
    else { s with labelId := s.labelId.insert s.lineLabel s.labelNum, labelNum := s.labelNum + 1 }
  { s with
    output := s.output ++ [(k, outputText s.lineLabel wordInLine)]
    outputHash := s.outputHash ++ [(k, hashEntries s.globalWordId wordInLine)]
    labelOutput := s.labelOutput ++ [(k, (s.labelId.lookup s.lineLabel).getD 0)]
    newWordOutput := s.newWordOutput ++ [(k, l.newWord)] }

def State.step (cfg : Config) (s : State) (k : Nat) (l : Line) : State :=
  match l.label cfg s.lineLabel with
  | none => s
  | some lineLabel =>
    let s := { s with lineLabel }
    if l.wordCount ≤ 0 then { s with output := s.output ++ [(k, lineLabel ++ [10])] }
    else
      let words := (l.segOut.take l.wordCount.toNat).filter cfg.keeps
      let v := words.foldl WordVars.addWord ⟨s.globalWordId, s.wordNum, .empty⟩
      let s := { s with globalWordId := v.globalWordId, wordNum := v.wordNum }
      -- `no_word`
      if words = [] then s else s.writeWords k l v.wordInLine

def run (cfg : Config) (lines : List Line) : State :=
  lines.zipIdx.foldl (fun s e => s.step cfg e.2 e.1) State.init

def State.worddict (ord : IterOrder (List UInt8) Nat) (s : State) : List (Σ _ : List UInt8, Nat) :=
  ord.walk 0 s.globalWordId

end TextMining.SegmentLineSVM
