import TextMining.LibCrf.Nbest
import TextMining.Lib.Bytes
import Mathlib.Data.Nat.Bitwise

/-!
# Words from tags

`crf_segment_words` of `lib_crf.cpp` with `add` and what `seg_tag.cpp` makes of
the taggings. A text in GBK is cut into characters, the characters are tagged,
and a term ends behind every character whose label begins with E or S. No
weights are computed, as at level 0.
-/

namespace TextMining.LibCrf

open Trellis

-- ---------------------------------------------------------------------------
-- The characters
-- ---------------------------------------------------------------------------

/-- The loop of `add` over the words of a row. A word longer than the number of
words is taken to be 99 bytes long, so that the next word is sought outside the
row; `none` then. -/
def addWords (maxWordNum : Nat) : Nat → List UInt8 → Option (List (List UInt8))
  | 0, _ => some []
  | rowLen + 1, row =>
    let word := cstr row
    if word.length > maxWordNum - 1 then none
    else (addWords maxWordNum rowLen (row.drop (word.length + 1))).map (word :: ·)

/-- Words behind the first `maxWordNum` are left out. -/
def add (maxWordNum : Nat) (row : List UInt8) (rowLen : Nat) : Option (List (List UInt8)) :=
  addWords maxWordNum (if rowLen > maxWordNum then maxWordNum else rowLen) row

-- ---------------------------------------------------------------------------
-- The terms
-- ---------------------------------------------------------------------------

/-- `pos` is the entry of `crftermpos`, `offset` that of `crftermoffsets`. -/
structure Term where
  pos : Nat
  offset : Nat
  iNeName : List UInt8
deriving DecidableEq, Repr

structure TermBuf where
  wordTotalLen : Nat
  terms : List Term
deriving DecidableEq, Repr

def crfGetTermPos (property : Nat) : Nat := property &&& 0x00FFFFFF

def crfGetTermLen (property : Nat) : Nat := property >>> 24

def maxWordLen : Nat := 100

def endsTerm (yname : List UInt8) : Bool := yname.head? = some 69 || yname.head? = some 83

/-- A tagger for words: `features` gives the costs that `buildFeatures` puts into
the nodes for a sequence of words. -/
structure SegCrfTag where
  tag : CrfTag
  maxWordNum : Nat
  ynames : List (List UInt8)
  features : List (List UInt8) → List (List Int)

namespace SegCrfTag

def yname (s : SegCrfTag) (y : Nat) : List UInt8 := s.ynames[y]?.getD []

def setNbest (t : CrfTag) (nbest : Nat) : CrfTag :=
  { t with nbest := if nbest < t.maxNbest then nbest else t.maxNbest }

def tagger (s : SegCrfTag) (words : List (List UInt8)) (nbest : Nat) : CrfTag :=
  { setNbest s.tag (if nbest > 10 then 10 else nbest) with
    node := (s.features words).map (·.map fun cost => ⟨cost, 0, none⟩)
    cost := 0
    nextTime := 0
    heap := s.tag.heap.reset }

end SegCrfTag

end TextMining.LibCrf
