import TextMining.LibCrf.Segment
import TextMining.Lib.Cutting

/-!
# The terms partition the text

Decoded from their packed positions, the terms are the pieces into which the
characters are cut behind the labels that end a term.
-/

namespace TextMining.LibCrf

open Trellis Cutting

-- ---------------------------------------------------------------------------
-- The characters
-- ---------------------------------------------------------------------------

def characters : List UInt8 → List (List UInt8)
  | [] => []
  | [b] => [[b]]
  | b :: c :: rest =>
    if b &&& 0x80 = 0x80 then [b, c] :: characters rest else [b] :: characters (c :: rest)

variable {text row : List UInt8} {maxWordNum rowLen : Nat}

def bytesOf (items : List (List UInt8 × List UInt8)) : List UInt8 := (items.map Prod.fst).flatten

def endsItem (item : List UInt8 × List UInt8) : Bool := endsTerm (snprintf maxWordLen item.2)

/-- Terms that stand one behind the other from `pos` on and are as long as the pieces. -/
def Listed : Nat → List Term → List (List (List UInt8 × List UInt8)) → Prop
  | _, [], [] => True
  | pos, t :: ts, p :: ps => crfGetTermPos t.pos = pos ∧ crfGetTermLen t.pos = (bytesOf p).length ∧
      t.offset = pos ∧ Listed (pos + (bytesOf p).length) ts ps
  | _, _, _ => False

variable {pre items : List (List UInt8 × List UInt8)} {useNe : Bool} {pos : Nat}

namespace SegCrfTag

open CrfTag

variable {s : SegCrfTag} {words : List (List UInt8)} {ys : List Nat} {buf : TermBuf} {nbest : Nat}
  {B : Int} {t t' t₁ : CrfTag}

/-- The words with their labels' names, cut behind the labels that end a term. -/
def pieces (s : SegCrfTag) (words : List (List UInt8)) (ys : List Nat) :
    List (List (List UInt8 × List UInt8)) :=
  cut endsItem [] (words.zip (ys.map s.yname))

structure Segments (s : SegCrfTag) (words : List (List UInt8)) (ys : List Nat) (buf : TermBuf) :
    Prop where
  length : ys.length = words.length
  cutAfter : CutAfter endsItem (words.zip (ys.map s.yname)) (s.pieces words ys)
  listed : Listed 0 buf.terms (s.pieces words ys)
  short : ∀ p ∈ s.pieces words ys, (bytesOf p).length ≤ maxWordLen
  total : buf.wordTotalLen = words.flatten.length

/-- The costs suit the words, and no sum of them leaves the range of an `int`. -/
structure Fits (s : SegCrfTag) (words : List (List UInt8)) (nbest : Nat) (B : Int) : Prop where
  rows : (s.features words).length = words.length
  small : (s.tagger words nbest).Small B
  width : 0 < s.tag.ysize
  length_le : words.length ≤ s.tag.result.length

theorem Fits.wordNum (h : s.Fits words nbest B) : (s.tagger words nbest).wordNum = words.length := by
  simp [tagger, CrfTag.wordNum, h.rows]

theorem Fits.fresh (h : s.Fits words nbest B) (hne : words ≠ []) :
    (s.tagger words nbest).Fresh B where
  small := h.small
  width := h.width
  word := by
    rw [h.wordNum]
    exact List.length_pos_iff.mpr hne
  length_le := by
    rw [h.wordNum]
    exact h.length_le
  heap := rfl
  elemSize := rfl

/-- What the segmenter returns for the words: terms of taggings in the order of
their scores, the first of which has the highest of all. -/
structure Best (s : SegCrfTag) (words : List (List UInt8)) (nbest : Nat) (bufs : List TermBuf)
    (taggings : List (List Nat)) : Prop where
  segments : List.Forall₂ (s.Segments words) taggings bufs
  tagging : ∀ ys ∈ taggings, ys ∈ sequences (s.tagger words nbest).scores words.length
  sorted : taggings.Pairwise fun ys zs =>
    score (s.tagger words nbest).scores 0 zs ≤ score (s.tagger words nbest).scores 0 ys
  first : ∀ ys, taggings.head? = some ys →
    ∀ zs ∈ sequences (s.tagger words nbest).scores words.length,
      score (s.tagger words nbest).scores 0 zs ≤ score (s.tagger words nbest).scores 0 ys

/-- A segmenter with the labels B and E, for which the features are of no account. -/
def plain : SegCrfTag where
  tag := twoWords 1
  maxWordNum := 3
  ynames := [[66], [69]]
  features words := words.map fun _ => [0, 0]

end SegCrfTag

end TextMining.LibCrf
