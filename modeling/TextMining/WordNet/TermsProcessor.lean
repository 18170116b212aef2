import TextMining.StringTool
import TextMining.WordNet.State
import TextMining.WordNet.Heap

/-!
# The co-occurrence indexer

`ParseLineTerms`, `AddCooc`, `SortIndex` and `FiltIndex` of `TermsProcessor`,
over an arbitrary `hashlittle`. The allocations in the `try` block of
`AddCooc` succeed or fail as an `Alloc` says. The log calls are left out: they
only read, as every key they look up is present (`Inv.key`).
-/

namespace TextMining.WordNet

def npos : Nat := 2 ^ 32 - 1

/-- A line as `ProcessTerms` hands it on: not empty, and no string reaches
the length `npos`. -/
structure Line where
  bytes : List UInt8
  nonempty : bytes ≠ []
  fits : bytes.length < npos

namespace Line

def termString (line : Line) : List (List UInt8) :=
  (StringTool.SpliteByChar npos line.bytes 9).getD []

/-- What `term` holds for each field after the first, the mid. -/
def terms (line : Line) : List (List UInt8) := line.termString.tail.map (snprintf 100)

theorem termString_eq (line : Line) : line.termString = StringTool.columns 9 line.bytes := by
  rw [termString, StringTool.SpliteByChar_eq rfl line.nonempty line.fits, Option.getD_some]

theorem termString_ne_nil (line : Line) : line.termString ≠ [] := by
  rw [termString_eq]
  exact StringTool.columns_ne_nil line.nonempty

end Line

/-- How the `try` block of `AddCooc` ends. -/
inductive Alloc
  | ok
  | pushFails
  | insertFails
  deriving DecidableEq

abbrev Order := IterOrder UInt32 Nat

-- ---------------------------------------------------------------------------
-- Pruning
-- ---------------------------------------------------------------------------

/-- The loop over the terms that `SortIndex` and `FiltIndex` share: a term
that is not skipped loses the related terms that `keep` rejects, given the
order in which they are visited, and their slots go to the free list. -/
def sweepTerms (ord : Order) (skip : TermInfo → Bool)
    (keep : TermInfo → List (Σ _ : UInt32, Nat) → Nat → (Σ _ : UInt32, Nat) → Bool) :
    Nat → List TermInfo → List Nat → List TermInfo × List Nat
  | _, [], free => ([], free)
  | i, t :: ts, free =>
    if skip t then
      let (ts, free) := sweepTerms ord skip keep (i + 1) ts free
      (t :: ts, free)
    else
      let order := ord.walk i t.coocTerm
      let (coocTerm, relateTermNum, free) := HashMap.sweep (keep t order) order t.coocTerm 0 free
      let (ts, free) := sweepTerms ord skip keep (i + 1) ts free
      ({ t with coocTerm, relateTermNum := UInt32.ofNat relateTermNum } :: ts, free)

namespace State

def sweepIndex (s : State) (ord : Order) (skip : TermInfo → Bool)
    (keep : TermInfo → List (Σ _ : UInt32, Nat) → Nat → (Σ _ : UInt32, Nat) → Bool) : State :=
  let (mTermInfo, mRelateIndexSlot) := sweepTerms ord skip keep 0 s.mTermInfo s.mRelateIndexSlot
  { s with mTermInfo, mRelateIndexSlot }

def relation (s : State) (slot : Nat) : UInt32 := (s.relate slot).numHistory + (s.relate slot).numNow

/-- `SortIndex(int)`; the comparison converts the threshold to unsigned. -/
def sortIndexInt (s : State) (threshold : Int32) (ord : Order) : State :=
  s.sweepIndex ord (fun _ => false) fun _ _ _ e => !(s.relation e.2 < threshold.toUInt32)

def sortIndexFloat (s : State) (threshold : Float32) (ord : Order) : State :=
  s.sweepIndex ord (fun _ => false) fun t _ _ e =>
    !((s.relation e.2).toFloat32 / (t.dfNow + t.dfHistory).toFloat32 < threshold)

/-- One related term in the heap-building loop of `FiltIndex`, for the heap
over `count`. -/
def filtPush (count : UInt32) (K i : Nat) (hash : UInt32) (buf : List SortItem) : List SortItem :=
  if i < K then
    let buf := buf.set i ⟨count.toInt32, hash.toInt32⟩
    if i = K - 1 then Heap.buildMinHeap buf K else buf
  else if count > (Heap.item buf 0).sortInt.toUInt32 then
    Heap.heapifyR (buf.set 0 ⟨count.toInt32, hash.toInt32⟩) K 0
  else buf

/-- The heap over `count` after all related terms. At least `K` of them are
pushed, so no item of the buffer is read before it is written. -/
def filtHeap (count : Nat → UInt32) (K : Nat) (order : List (Σ _ : UInt32, Nat)) : List SortItem :=
  (order.zipIdx).foldl (fun buf (e, i) => filtPush (count e.2) K i e.1 buf)
    (List.replicate K ⟨0, 0⟩)

/-- The first item of that heap, as the comparisons read it. -/
def filtMin (count : Nat → UInt32) (K : Nat) (order : List (Σ _ : UInt32, Nat)) : UInt32 :=
  (Heap.item (filtHeap count K order) 0).sortInt.toUInt32

def filtIndex (s : State) (K : Nat) (ord : Order) : State :=
  s.sweepIndex ord (fun t => t.relateTermNum.toNat < K) fun _ order n e =>
    n < K * 2 &&
      ((s.relate e.2).numNow > filtMin (fun slot => (s.relate slot).numNow) K order ||
        (s.relate e.2).numHistory > filtMin (fun slot => (s.relate slot).numHistory) K order)

-- ---------------------------------------------------------------------------
-- Indexing a line
-- ---------------------------------------------------------------------------

/-- The answer is `none` for -1. -/
def getIndexSlot (s : State) : Option Nat × State :=
  match s.mRelateIndexSlot.getLast? with
  | none => (none, s)
  | some index => (some index, { s with mRelateIndexSlot := s.mRelateIndexSlot.dropLast })

def reuseSlot (s : State) (i : Nat) (hash : UInt32) : Option Nat × State :=
  match s.getIndexSlot with
  | (none, s) => (none, s)
  | (some coocIndex, s) => (some coocIndex, s.setCooc i hash coocIndex)

def pushRelate (s : State) : State :=
  { s with mRelateInfo := s.mRelateInfo ++ [RelateTermInfo.fresh] }

/-- The handler of `bad_alloc`, before it asks for a slot. -/
def outOfMemory (s : State) (ord : Order) : State :=
  { s.sortIndexInt 1 ord with mNoMemory := true }

/-- The `try` block for a new pair and its handler. -/
def appendSlot (s : State) (i : Nat) (hash : UInt32) (alloc : Alloc) (ord : Order) :
    Option Nat × State :=
  match alloc with
  | .ok => (some s.mRelateInfo.length, s.pushRelate.setCooc i hash s.mRelateInfo.length)
  | .pushFails => (s.outOfMemory ord).reuseSlot i hash
  | .insertFails => (s.pushRelate.outOfMemory ord).reuseSlot i hash

def countRelate (s : State) (i : Nat) : State :=
  let s := s.modifyTerm i fun t => { t with relateTermNum := t.relateTermNum + 1 }
  { s with total := { s.total with relateTermNum := s.total.relateTermNum + 1 } }

/-- The body of the loops of `AddCooc` for two different terms of the line;
`error` is the return of -1 with the state it leaves. -/
def addPair (s : State) (hashI hashJ : UInt32) (alloc : Alloc) (ord : Order) :
    Except State State :=
  let i := s.termIndex hashI
  match s.findCooc i hashJ with
  | none =>
    match if s.mNoMemory then s.reuseSlot i hashJ else s.appendSlot i hashJ alloc ord with
    | (none, s) => .error s
    | (some coocIndex, s) =>
      if coocIndex ≥ s.mRelateInfo.length then .error s else .ok (s.countRelate i)
  | some relateIndex =>
    if relateIndex ≥ s.mRelateInfo.length then .error s
    else .ok (s.modifyRelate relateIndex fun r => { r with numNow := r.numNow + 1 })

/-- The positions `(i, j)` that the two loops visit, in their order. -/
def positions (n : Nat) : List (Nat × Nat) :=
  (List.range n).flatMap fun i => ((List.range n).filter (· ≠ i)).map fun j => (i, j)

def addCooc (s : State) (hashValues : List UInt32) (alloc : Nat × Nat → Alloc) (ord : Order) :
    Except State State :=
  (positions hashValues.length).foldlM
    (fun s p => s.addPair (hashValues.getD p.1 0) (hashValues.getD p.2 0) (alloc p) ord) s

/-- The state after a call whose result is not looked at. -/
def outcome : Except State State → State
  | .error s => s
  | .ok s => s

section
variable (hashlittle : List UInt8 → UInt32)

def recordTerm (s : State) (term : List UInt8) : State :=
  let hashValue := hashlittle term
  match s.mTermIndex.lookup hashValue with
  | none =>
    { s with
      mTermIndex := s.mTermIndex.insert hashValue s.total.termNum
      mTermInfo := s.mTermInfo ++ [⟨snprintf 64 term, 0, 1, 0, ∅⟩]
      total := { s.total with termNum := s.total.termNum + 1 } }
  | some termIndex => s.modifyTerm termIndex fun t => { t with dfNow := t.dfNow + 1 }

/-- One term of the line; `hmInWeibo` has the hashes of `hash_values`. -/
def scanTerm (acc : State × List UInt32) (term : List UInt8) : State × List UInt32 :=
  let hashValue := hashlittle term
  if hashValue ∈ acc.2 then acc else (acc.1.recordTerm hashlittle term, acc.2 ++ [hashValue])

def scanTerms (s : State) (terms : List (List UInt8)) : State × List UInt32 :=
  terms.foldl (scanTerm hashlittle) (s, [])

/-- Indexing the terms of a line; the result of `AddCooc` is not looked at. -/
def indexTerms (s : State) (terms : List (List UInt8)) (alloc : Nat × Nat → Alloc) (ord : Order) :
    State :=
  let scanned := s.scanTerms hashlittle terms
  let s := outcome (scanned.1.addCooc scanned.2 alloc ord)
  { s with total := { s.total with weiboNum := s.total.weiboNum + 1 } }

def parseLineTerms (s : State) (line : Line) (alloc : Nat × Nat → Alloc) (ord : Order) : State :=
  if line.termString = [] then s else s.indexTerms hashlittle line.terms alloc ord

end

end State

-- ---------------------------------------------------------------------------
-- Runs
-- ---------------------------------------------------------------------------

/-- A call on the index, with the outcomes that the program does not fix. -/
inductive Cmd
  | parseLineTerms (line : Line) (alloc : Nat × Nat → Alloc) (ord : Order)
  | sortIndexInt (threshold : Int32) (ord : Order)
  | sortIndexFloat (threshold : Float32) (ord : Order)
  | filtIndex (K : Nat) (pos : 1 ≤ K) (alloc : Bool) (ord : Order)

def Cmd.exec (hashlittle : List UInt8 → UInt32) (s : State) : Cmd → State
  | .parseLineTerms line alloc ord => s.parseLineTerms hashlittle line alloc ord
  | .sortIndexInt threshold ord => s.sortIndexInt threshold ord
  | .sortIndexFloat threshold ord => s.sortIndexFloat threshold ord
  | .filtIndex K _ alloc ord => if alloc then s.filtIndex K ord else s

def run (hashlittle : List UInt8 → UInt32) (s : State) (cmds : List Cmd) : State :=
  cmds.foldl (Cmd.exec hashlittle) s

end TextMining.WordNet
