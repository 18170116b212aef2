import TextMining.Lib.Bytes
import TextMining.Lib.Float
import TextMining.Lib.OrdMap
import TextMining.Lib.Registry

/-!
# Counting the terms of typed posts

`LoadWeibo` up to the cells of the chi-square test, and `RecordTerm`. What the
segmenter finds in a post is part of the post. The counters are numbers without
a bound; the weights and scores, which no counter depends on, are left out.
-/

namespace TextMining.TagExtract

structure Env where
  stlHashString : List UInt8 → Int32
  isBadTerm : Int32 → Bool

/-- A word of the segmenter, which fits the array `term`. -/
structure WordItem where
  bytes : List UInt8
  idf : Int32
  postagid : Int32
  short : bytes.length < 100

/-- A post with the names in its type column, and the word list and the list of
appended words, unless the segmenter fails. -/
structure Post where
  types : List (List UInt8)
  words : Option (List WordItem × List WordItem)
  typed : types ≠ []

structure TermInfo where
  termstr : List UInt8
  postagid : Int32
  nTotalTF : Nat
  nTotalTFBin : Nat
  isBadNum : Nat
  termFreq : HashMap Int32 Nat
  termFreqBin : HashMap Int32 Nat

structure TypeTermInfo where
  termstr : List UInt8
  termNum : Nat
  postagid : Int32

structure WbTypeInfo where
  weiboNum : Nat
  typeTerm : OrdMap (List UInt8) TypeTermInfo

abbrev TypeMap := OrdMap (List UInt8) WbTypeInfo

structure State where
  hmLocal : HashMap Int32 Nat
  mTermNum : Nat
  mWeiboNum : Nat
  mTermIndex : HashMap Int32 Nat
  vTermInfo : List TermInfo
  mapTypeInfo : OrdMap Int32 (List UInt8)
  mTypeTermWeight : TypeMap

def State.init : State := ⟨∅, 0, 0, ∅, [], .empty, .empty⟩

namespace TypeMap

def typeInfo (m : TypeMap) (type : List UInt8) : WbTypeInfo := (m.lookup type).getD ⟨0, .empty⟩

def setTypeTerm (m : TypeMap) (type term : List UInt8) (t : TypeTermInfo) : TypeMap :=
  m.insert type { m.typeInfo type with typeTerm := (m.typeInfo type).typeTerm.insert term t }

def termNum (m : TypeMap) (type term : List UInt8) : Nat :=
  ((m.typeInfo type).typeTerm.lookup term).elim 0 TypeTermInfo.termNum

def newTypeTerm (term : List UInt8) (postagid : Int32) (m : TypeMap) (type : List UInt8) :
    TypeMap :=
  m.setTypeTerm type term ⟨snprintf 64 term, 1, postagid⟩

def countTypeTerm (term : List UInt8) (postagid : Int32) (m : TypeMap) (type : List UInt8) :
    TypeMap :=
  match (m.typeInfo type).typeTerm.lookup term with
  | none => m.newTypeTerm term postagid type
  | some t => m.setTypeTerm type term { t with termNum := t.termNum + 1 }

end TypeMap

def increment (m : HashMap Int32 Nat) (key : Int32) : HashMap Int32 Nat :=
  m.insert key ((m.lookup key).getD 0 + 1)

section
variable (env : Env)

def hashType (type : List UInt8) : Int32 := env.stlHashString (cstr type)

namespace TermInfo

/-- A type of the first post of a term. -/
def newType (isBad : Nat) (info : TermInfo) (type : List UInt8) : TermInfo :=
  { info with
    termFreq := info.termFreq.insert (hashType env type) 1
    termFreqBin := info.termFreqBin.insert (hashType env type) 1
    nTotalTF := info.nTotalTF + 1
    isBadNum := info.isBadNum + isBad
    nTotalTFBin := info.nTotalTFBin + 1 }

/-- A type of a later post. -/
def countType (isBad : Nat) (info : TermInfo) (type : List UInt8) : TermInfo :=
  { info with
    termFreq := increment info.termFreq (hashType env type)
    termFreqBin := increment info.termFreqBin (hashType env type)
    nTotalTF := info.nTotalTF + 1
    isBadNum := info.isBadNum + isBad
    nTotalTFBin := info.nTotalTFBin + 1 }

/-- A type of a post that has the term more than once. -/
def repeatType (isBad : Nat) (info : TermInfo) (type : List UInt8) : TermInfo :=
  { info with
    termFreq := increment info.termFreq (hashType env type)
    nTotalTF := info.nTotalTF + 1
    isBadNum := info.isBadNum + isBad }

end TermInfo

namespace State

/-- The answer is `false` for -1. -/
def recordTerm (s : State) (types : List (List UInt8)) (w : WordItem) : Bool × State :=
  let term := cstr w.bytes
  let hashValue := env.stlHashString term
  let isBad := if env.isBadTerm w.postagid then 1 else 0
  match s.mTermIndex.lookup hashValue with
  | none =>
    let info : TermInfo := ⟨snprintf 64 term, w.postagid, 0, 0, 0, ∅, ∅⟩
    let s := { s with
      mTypeTermWeight := types.foldl (TypeMap.newTypeTerm term w.postagid) s.mTypeTermWeight
      hmLocal := s.hmLocal.insert hashValue 1
      mTermIndex := s.mTermIndex.insert hashValue s.mTermNum
      vTermInfo := s.vTermInfo ++ [types.foldl (TermInfo.newType env isBad) info]
      mTermNum := s.mTermNum + 1 }
    (s.vTermInfo.length = s.mTermNum, s)
  | some termIndex =>
    if hashValue ∉ s.hmLocal then
      (true, { s with
        vTermInfo := s.vTermInfo.modify termIndex (types.foldl (TermInfo.countType env isBad))
        mTypeTermWeight := types.foldl (TypeMap.countTypeTerm term w.postagid) s.mTypeTermWeight
        hmLocal := s.hmLocal.insert hashValue 1 })
    else
      (true, { s with
        vTermInfo := s.vTermInfo.modify termIndex (types.foldl (TermInfo.repeatType env isBad)) })

def countType (s : State) (type : List UInt8) : State :=
  let info := s.mTypeTermWeight.typeInfo type
  { s with
    mWeiboNum := s.mWeiboNum + 1
    mapTypeInfo := s.mapTypeInfo.insert (hashType env type) type
    mTypeTermWeight := s.mTypeTermWeight.insert type { info with weiboNum := info.weiboNum + 1 } }

/-- A word of a post; a term without idf or of up to 3 bytes is not recorded. -/
def recordWord (types : List (List UInt8)) (s : State) (w : WordItem) : State :=
  if w.idf.toInt.tdiv 10 = 0 ∨ w.bytes.length ≤ 3 then s else (s.recordTerm env types w).2

def recordPost (s : State) (p : Post) : State :=
  let s := { s with hmLocal := ∅ }
  if p.types.length < 1 then s
  else
    let s := p.types.foldl (countType env) s
    match p.words with
    | none => s
    | some (wordlist, appwordlist) =>
      appwordlist.foldl (recordWord env p.types) (wordlist.foldl (recordWord env p.types) s)

def loadWeibo (posts : List Post) : State := posts.foldl (recordPost env) .init

end State

end

-- ---------------------------------------------------------------------------
-- Cells
-- ---------------------------------------------------------------------------

structure Cells where
  n11 : Int
  n10 : Int
  n01 : Int
  n00 : Int
  deriving DecidableEq

namespace State

def cells (s : State) (info : TermInfo) (e : Σ _ : Int32, Nat) : Cells :=
  let type := (s.mapTypeInfo.lookup e.1).getD []
  -- an entry that is missing here is made, with all counters 0
  let termNum := s.mTypeTermWeight.termNum type info.termstr
  let weiboNum := (s.mTypeTermWeight.typeInfo type).weiboNum
  let n11 := float e.2
  let n10 := float (float info.nTotalTFBin - n11)
  let n01 := float (weiboNum - termNum)
  ⟨n11, n10, n01, float (float (float (float s.mWeiboNum - n01) - n10) - n11)⟩

def visits (s : State) (ord : IterOrder Int32 Nat) : List (TermInfo × Σ _ : Int32, Nat) :=
  s.vTermInfo.zipIdx.flatMap fun r => (ord.walk r.2 r.1.termFreqBin).map fun e => (r.1, e)

end State

end TextMining.TagExtract
