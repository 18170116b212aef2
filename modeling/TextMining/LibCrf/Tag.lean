import TextMining.LibCrf.MinHeap

/-!
# The tagger

`viterbi`, `initNbest` and `next` of `tag.cpp` in libcrf. All costs are whole
numbers: the model's weights are converted when it is loaded. What
`buildFeatures` puts into `node` is taken as given.
-/

namespace TextMining.LibCrf

/-- What an `int` holds: sums that leave its range wrap around. -/
def int (x : Int) : Int := x.bmod 4294967296

def intMin : Int := -2147483648

/-- `prev` is the label of the node in the row before that the pointer leads to. -/
structure Node where
  cost : Int
  bestCost : Int
  prev : Option Nat
deriving DecidableEq, Repr

/-- `node` has a row for each word to tag; `alpha` holds the costs of the label
pairs row by row. -/
structure CrfTag where
  ysize : Nat
  alpha : List Int
  maxNbest : Nat
  nbest : Nat
  node : List (List Node)
  result : List Nat
  cost : Int
  nextTime : Nat
  heap : Heap
deriving DecidableEq, Repr

namespace CrfTag

def wordNum (t : CrfTag) : Nat := t.node.length

def pathCost (t : CrfTag) (y₁ y₂ : Nat) : Int := t.alpha[y₁ * t.ysize + y₂]?.getD 0

def nodeAt (t : CrfTag) (x y : Nat) : Node :=
  ((t.node[x]?.bind (·[y]?)).getD ⟨0, 0, none⟩)

-- ---------------------------------------------------------------------------
-- `viterbi`
-- ---------------------------------------------------------------------------

/-- The loop over `k`: the best node of the row before, if it is no first row. -/
def best (t : CrfTag) (before : List Node) (cost : Int) (j : Nat) : Int × Option Nat :=
  before.zipIdx.foldl (fun best n =>
    let nodeCost := int (int (n.1.bestCost + t.pathCost n.2 j) + cost)
    if nodeCost > best.1 then (nodeCost, some n.2) else best) (intMin, none)

def viterbiNode (t : CrfTag) (before : List Node) (n : Node) (j : Nat) : Node :=
  match t.best before n.cost j with
  | (bestc, some k) => { n with prev := some k, bestCost := bestc }
  | (_, none) => { n with prev := none, bestCost := n.cost }

def viterbiRows (t : CrfTag) : List Node → List (List Node) → List (List Node)
  | _, [] => []
  | before, row :: rows =>
    let row := row.mapIdx fun j n => t.viterbiNode before n j
    row :: viterbiRows t row rows

/-- The last loop: the first node of the last row with the highest `bestCost`. -/
def lastBest (row : List Node) : Int × Option Nat :=
  row.zipIdx.foldl (fun best n =>
    if best.1 < n.1.bestCost then (n.1.bestCost, some n.2) else best) (intMin, none)

/-- The nodes from label `y` of the first row given along `prev`, the rows being
listed from the last to the first. -/
def follow : List (List Node) → Nat → List (Nat × Nat)
  | [], _ => []
  | row :: rows, y => (rows.length, y) ::
    match row[y]?.bind Node.prev with
    | some y' => follow rows y'
    | none => []

def writeResult (result : List Nat) (nodes : List (Nat × Nat)) : List Nat :=
  nodes.foldl (fun result n => result.set n.1 n.2) result

def viterbi (t : CrfTag) : CrfTag :=
  let t := { t with node := t.viterbiRows [] t.node }
  let result := match (lastBest (t.node.getLast?.getD [])).2 with
    | some y => writeResult t.result (follow t.node.reverse y)
    | none => t.result
  { t with
    result
    cost := int (-(t.nodeAt (t.wordNum - 1) (result[t.wordNum - 1]?.getD 0)).bestCost) }

-- ---------------------------------------------------------------------------
-- `initNbest` and `next`
-- ---------------------------------------------------------------------------

def push (heap : Heap) (qe : QueueElement) : Option Heap := do
  let heap ← heap.alloc
  heap.insert qe

/-- A loop that pushes an element for each label; it stops where one does not fit. -/
def pushAll (element : Nat → QueueElement) : List Nat → Heap → Bool × Heap
  | [], heap => (true, heap)
  | i :: is, heap =>
    match push heap (element i) with
    | some heap => pushAll element is heap
    | none => (false, heap)

def eos (t : CrfTag) (i : Nat) : QueueElement :=
  let k := t.wordNum - 1
  { x := k, y := i, next := [],
    fx := int (-(t.nodeAt k i).bestCost), gx := int (-(t.nodeAt k i).cost) }

def initNbest (t : CrfTag) : Int × CrfTag :=
  let (ok, heap) := pushAll t.eos (List.range t.ysize) t.heap
  (if ok then 0 else -1, { t with heap })

def parse (t : CrfTag) : Int × CrfTag :=
  if t.wordNum = 0 then (0, t)
  else if t.maxNbest > 1 ∧ t.nbest > 1 then t.viterbi.initNbest
  else (0, t.viterbi)

/-- The element that puts label `i` in front of `top`. -/
def extend (t : CrfTag) (top : QueueElement) (i : Nat) : QueueElement :=
  let xNum := top.x - 1
  { x := xNum, y := i, next := (top.x, top.y) :: top.next,
    gx := int (int (-(t.nodeAt xNum i).cost - t.pathCost i top.y) + top.gx),
    fx := int (int (-(t.nodeAt xNum i).bestCost - t.pathCost i top.y) + top.gx) }

/-- The loop of `next`; `none` when it has not ended after so many rounds. -/
def nextLoop : Nat → CrfTag → Option (Int × CrfTag)
  | 0, _ => none
  | fuel + 1, t =>
    match t.heap.deleteMin with
    | none => some (0, t)
    | some (top, heap) =>
      if top.x = 0 then
        some (0, { t with
          heap
          result := writeResult t.result ((top.x, top.y) :: top.next)
          cost := top.gx
          nextTime := t.nextTime + 1 })
      else
        match pushAll (t.extend top) (List.range t.ysize) heap with
        | (true, heap) => nextLoop fuel { t with heap }
        | (false, heap) => some (-1, { t with heap })

/-- Each round takes an element out of the heap, and no more than `capacity` go in. -/
def next (t : CrfTag) : Option (Int × CrfTag) :=
  if t.maxNbest = 1 then some (-1, t)
  else nextLoop (t.heap.capacity + 1) t

end CrfTag

end TextMining.LibCrf
