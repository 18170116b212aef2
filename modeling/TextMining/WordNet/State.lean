import TextMining.Lib.HashMap
import Mathlib.Data.List.Basic

/-!
# The state of the co-occurrence indexer

The containers of `TermsProcessor` and the records they hold. Vectors are
lists; their sizes and the indices into them are natural numbers, since a
vector of these records cannot outgrow an `int` in the address space. The
counters inside the records are the machine's own and wrap.
-/

namespace TextMining.WordNet

structure RelateTermInfo where
  numHistory : UInt32
  numNow : UInt32
  relation : UInt32
  deriving DecidableEq, Repr

/-- `term_info_t`; `termstr` is the C string in the array, and `coocTerm`
maps the hash of a related term to a slot of `mRelateInfo`. -/
structure TermInfo where
  termstr : List UInt8
  dfHistory : UInt32
  dfNow : UInt32
  relateTermNum : UInt32
  coocTerm : HashMap UInt32 Nat

structure TotalIndexInfo where
  termNum : Nat
  relateTermNum : UInt32
  sortedRelateTermNum : UInt32
  weiboNum : UInt64
  deriving DecidableEq, Repr

structure State where
  mTermIndex : HashMap UInt32 Nat
  mTermInfo : List TermInfo
  mRelateInfo : List RelateTermInfo
  mRelateIndexSlot : List Nat
  mNoMemory : Bool
  total : TotalIndexInfo

def State.empty : State := ⟨∅, [], [], [], false, ⟨0, 0, 0, 0⟩⟩

def RelateTermInfo.fresh : RelateTermInfo := ⟨0, 1, 0⟩

namespace State

def termIndex (s : State) (hash : UInt32) : Nat := (s.mTermIndex.lookup hash).getD 0

def relate (s : State) (slot : Nat) : RelateTermInfo := s.mRelateInfo[slot]?.getD ⟨0, 0, 0⟩

def modifyTerm (s : State) (i : Nat) (f : TermInfo → TermInfo) : State :=
  { s with mTermInfo := s.mTermInfo.modify i f }

def modifyRelate (s : State) (slot : Nat) (f : RelateTermInfo → RelateTermInfo) : State :=
  { s with mRelateInfo := s.mRelateInfo.modify slot f }

def findCooc (s : State) (i : Nat) (hash : UInt32) : Option Nat :=
  s.mTermInfo[i]?.bind fun t => t.coocTerm.lookup hash

def setCooc (s : State) (i : Nat) (hash : UInt32) (slot : Nat) : State :=
  s.modifyTerm i fun t => { t with coocTerm := t.coocTerm.insert hash slot }

def usedSlots (s : State) : List Nat := s.mTermInfo.flatMap fun t => t.coocTerm.values

end State

end TextMining.WordNet
