import TextMining.Lib.OrdSet
import Mathlib.Logic.Function.Basic

/-!
# The Aho-Corasick automaton

`Aho_Corasick` of `libsrc/rqlib/ac.cpp`; the copy beside the landmark search
has the same `clear`, `insert`, `build_automata` and `get_match`. A C string
is the list of its bytes before the terminating NUL, and `_node` is a list of
nodes indexed by offset. The loops whose termination depends on the failure
links take fuel and answer `none` when it runs out.
-/

namespace TextMining.AhoCorasick

def None : Int := -1

def Root : Nat := 0

/-- The map `child` is the partial function from a character to an offset. -/
structure Node where
  id : Int
  failOff : Option Nat
  child : UInt8 → Option Nat

def Node.fresh : Node := ⟨None, some Root, fun _ => none⟩

end AhoCorasick

structure AhoCorasick where
  nodes : List AhoCorasick.Node

namespace AhoCorasick

def size (A : AhoCorasick) : Nat := A.nodes.length

def node (A : AhoCorasick) (off : Nat) : Node := A.nodes[off]?.getD Node.fresh

def push (A : AhoCorasick) (n : Node) : AhoCorasick := ⟨A.nodes ++ [n]⟩

def modify (A : AhoCorasick) (off : Nat) (f : Node → Node) : AhoCorasick :=
  ⟨A.nodes.modify off f⟩

def setId (A : AhoCorasick) (off : Nat) (id : Int) : AhoCorasick :=
  A.modify off fun n => { n with id := id }

def setFail (A : AhoCorasick) (off : Nat) (fail : Option Nat) : AhoCorasick :=
  A.modify off fun n => { n with failOff := fail }

def setChild (A : AhoCorasick) (off : Nat) (c : UInt8) (child : Nat) : AhoCorasick :=
  A.modify off fun n => { n with child := Function.update n.child c (some child) }

-- ---------------------------------------------------------------------------
-- Dictionary
-- ---------------------------------------------------------------------------

def clear : AhoCorasick := ⟨[⟨None, none, fun _ => none⟩]⟩

/-- A new child is numbered by the size of `_node` before it is pushed. -/
def addChild (A : AhoCorasick) (off : Nat) (c : UInt8) : AhoCorasick :=
  if (A.node off).child c = none then (A.setChild off c A.size).push Node.fresh else A

def insertLoop (A : AhoCorasick) (off : Nat) : List UInt8 → AhoCorasick × Nat
  | [] => (A, off)
  | c :: str =>
    let A := A.addChild off c
    insertLoop A (((A.node off).child c).getD Root) str

def insert (A : AhoCorasick) (str : List UInt8) (id : Int) : AhoCorasick :=
  let (A, off) := A.insertLoop Root str
  A.setId off id

-- ---------------------------------------------------------------------------
-- Failure links
-- ---------------------------------------------------------------------------

/-- The inner `while (next != None)`: the first child on `c` along the failure
links from `next`, `some none` when the links end without one. -/
def findNext (A : AhoCorasick) (c : UInt8) : Nat → Option Nat → Option (Option Nat)
  | _, none => some none
  | 0, some _ => none
  | fuel + 1, some next =>
    match (A.node next).child c with
    | some nextChild => some (some nextChild)
    | none => A.findNext c fuel (A.node next).failOff

def buildChild (A : AhoCorasick) (father : Nat) (c : UInt8) (child : Nat) : Option AhoCorasick :=
  if father = Root then some (A.setFail child (some Root))
  else (A.findNext c A.size (A.node father).failOff).map fun
    | some nextChild =>
      let A := A.setFail child (some nextChild)
      if (A.node child).id = None then A.setId child (A.node nextChild).id else A
    | none => A.setFail child (some Root)

/-- The characters in the order of a signed `char` key. -/
def characters : List UInt8 :=
  (List.range 128).map (fun n => UInt8.ofNat (n + 128)) ++ (List.range 128).map UInt8.ofNat

def children (A : AhoCorasick) (father : Nat) : List (UInt8 × Nat) :=
  characters.filterMap fun c => ((A.node father).child c).map fun child => (c, child)

def buildChildren (A : AhoCorasick) (father : Nat) :
    List (UInt8 × Nat) → Option AhoCorasick
  | [] => some A
  | (c, child) :: rest => (A.buildChild father c child).bind fun A => A.buildChildren father rest

def buildLoop (A : AhoCorasick) : Nat → List Nat → Option AhoCorasick
  | _, [] => some A
  | 0, _ :: _ => none
  | fuel + 1, father :: que =>
    (A.buildChildren father (A.children father)).bind fun B =>
      B.buildLoop fuel (que ++ (A.children father).map Prod.snd)

def buildAutomata (A : AhoCorasick) : Option AhoCorasick := A.buildLoop A.size [Root]

-- ---------------------------------------------------------------------------
-- Matching
-- ---------------------------------------------------------------------------

def fallBack (A : AhoCorasick) (c : UInt8) : Nat → Nat → Option Nat
  | fuel, off =>
    if off ≠ Root ∧ (A.node off).child c = none then
      match fuel, (A.node off).failOff with
      | fuel + 1, some fail => A.fallBack c fuel fail
      | _, _ => none
    else some off

def backIds (A : AhoCorasick) : Nat → Nat → Option (List Int)
  | fuel, backOff =>
    if (A.node backOff).id ≠ None ∧ backOff ≠ Root then
      match fuel, (A.node backOff).failOff with
      | fuel + 1, some fail => (A.backIds fuel fail).map fun ids => (A.node backOff).id :: ids
      | _, _ => none
    else some []

def matchLoop (A : AhoCorasick) : Nat → OrdSet Int → List UInt8 → Option (OrdSet Int)
  | _, ret, [] => some ret
  | off, ret, c :: str =>
    (A.fallBack c A.size off).bind fun off =>
      match (A.node off).child c with
      | none => A.matchLoop off ret str
      | some off => (A.backIds A.size off).bind fun ids => A.matchLoop off (ret.insertAll ids) str

def getMatch (A : AhoCorasick) (str : List UInt8) : Option (OrdSet Int) :=
  A.matchLoop Root OrdSet.empty str

end AhoCorasick

end TextMining
