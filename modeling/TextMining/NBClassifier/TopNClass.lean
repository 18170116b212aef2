import TextMining.Lib.BeamSearch
import TextMining.NBClassifier.ClassTree
import Mathlib.Algebra.Order.Ring.Rat

/-!
# The best classes of a beam

`GetTopNClass` goes down the class tree at the `topN` sons with the highest
scores, which it adds up on the way, and leaves the best leaf in `PredictOut`.
The score of a term is taken as exact; the scores are of any ordered monoid.
-/

namespace TextMining.NBClassifier

open Beam (Queue Leads scored beam)
open ClassMap (links IsTree)

section
variable {R : Type*} [LinearOrder R] [AddMonoid R]

/-- What scoring takes from outside: the hash function, the score of a term
that occurs some times for a class, and the `priority_queue`. -/
structure Scoring (R : Type*) [LinearOrder R] where
  env : Env
  termScore : TermInfo → Int32 → Int32 → R
  queue : Queue Int32 R

namespace State

variable (s : State) (scoring : Scoring R) (terms : List (List UInt8 × Int32))

def scoreFrom (currentScore : R) (classId : Int32) : R :=
  terms.foldl (fun score term =>
    match s.termHashMap.lookup (scoring.env.hashlittle term.1) with
    | none => score
    | some index =>
      match s.mNBTerms[index.toNat]? with
      | none => score
      | some info => score + scoring.termScore info term.2 classId) currentScore

/-- `PredictOut` after the call; `none` when the fuel runs out. -/
def getTopNClass (topN : Nat) : Nat → Int32 → R → Int32 × R → Option (Int32 × R)
  | fuel, beginNode, currentScore, predictOut =>
    if (s.node beginNode).sons = [] then some predictOut
    else
      match fuel with
      | 0 => none
      | fuel + 1 =>
        let classScores := scoring.queue.pops ((s.node beginNode).sons.map fun classId =>
          (classId, s.scoreFrom scoring terms currentScore classId))
        (classScores.take topN).foldlM (fun predictOut classScore =>
          if (s.node classScore.1).sons = [] then
            some (if predictOut.2 < classScore.2 then classScore else predictOut)
          else getTopNClass topN fuel classScore.1 classScore.2 predictOut) predictOut

-- ---------------------------------------------------------------------------
-- Leaves
-- ---------------------------------------------------------------------------

def ownScore (classId : Int32) : R := s.scoreFrom scoring terms 0 classId

def scoredSons (classId : Int32) (score : R) : List (Int32 × R) :=
  scored (fun c => (s.node c).sons) (s.ownScore scoring terms) classId score

def topSons (topN : Nat) (classId : Int32) (score : R) : List (Int32 × R) :=
  beam (fun c => (s.node c).sons) (s.ownScore scoring terms) scoring.queue topN classId score

/-- A leaf at the end of a path that goes from the root to one of the `next`
sons at a time, with the sum of the scores on the path. -/
def LeafBy (next : Int32 → R → List (Int32 × R)) (leaf : Int32 × R) : Prop :=
  ∃ path, Leads (fun c => (s.node c).sons) next 0 0 path leaf ∧
    path.getLast? = some leaf.1 ∧ leaf.2 = (path.map (s.ownScore scoring terms)).sum

end State

/-- The best of the leaves is reported if its score is positive. -/
structure Reports (leaf : Int32 × R → Prop) (predictOut : Int32 × R) : Prop where
  best : (∃ l, leaf l ∧ 0 < l.2) → leaf predictOut ∧ ∀ l, leaf l → l.2 ≤ predictOut.2
  none : (∀ l, leaf l → l.2 ≤ 0) → predictOut = (0, 0)

section
variable {s : State} {scoring : Scoring R} {terms : List (List UInt8 × Int32)} {topN : Nat}

def State.partScore (s : State) (scoring : Scoring R) (classId : Int32)
    (term : List UInt8 × Int32) : R :=
  ((s.termHashMap.lookup (scoring.env.hashlittle term.1)).bind fun index =>
    s.mNBTerms[index.toNat]?).elim 0 fun info => scoring.termScore info term.2 classId

theorem scoreFrom_sum (currentScore : R) (classId : Int32) :
    s.scoreFrom scoring terms currentScore classId =
      currentScore + (terms.map (s.partScore scoring classId)).sum := by
  induction terms generalizing currentScore with
  | nil => exact (add_zero currentScore).symm
  | cons term terms ih =>
    rw [List.map_cons, List.sum_cons, ← add_assoc, ← ih, State.scoreFrom, State.scoreFrom,
      List.foldl_cons]
    congr 1
    rw [State.partScore]
    cases s.termHashMap.lookup (scoring.env.hashlittle term.1) with
    | none => exact (add_zero currentScore).symm
    | some index =>
      simp only [Option.bind_some]
      cases s.mNBTerms[index.toNat]? with
      | none => exact (add_zero currentScore).symm
      | some info => rfl

theorem scoreFrom_eq (currentScore : R) (classId : Int32) :
    s.scoreFrom scoring terms currentScore classId =
      currentScore + s.ownScore scoring terms classId := by
  rw [State.ownScore, scoreFrom_sum, scoreFrom_sum, zero_add]

/-- The function is a beam search. -/
theorem getTopNClass_eq (fuel : Nat) (beginNode : Int32) (currentScore : R)
    (predictOut : Int32 × R) :
    s.getTopNClass scoring terms topN fuel beginNode currentScore predictOut =
      Beam.search (fun c => (s.node c).sons) (s.ownScore scoring terms) scoring.queue topN fuel
        beginNode currentScore predictOut := by
  induction fuel generalizing beginNode currentScore predictOut with
  | zero => rw [State.getTopNClass, Beam.search]
  | succ fuel ih =>
    rw [State.getTopNClass, Beam.search]
    split
    · rfl
    · simp only [scoreFrom_eq, ih]
      rfl

theorem reports_of_best {leaf : Int32 × R → Prop} {out : Int32 × R}
    (h : Beam.Best leaf (0, 0) out) : Reports leaf out := by
  constructor
  · rintro ⟨l, hl, hpos⟩
    rcases h.eq_or with rfl | ⟨hout, -⟩
    · exact absurd (h.le l hl) (not_le.mpr hpos)
    · exact ⟨hout, h.le⟩
  · intro hle
    rcases h.eq_or with he | ⟨hout, hlt⟩
    · exact he
    · exact absurd (hle out hout) (not_le.mpr hlt)

theorem leafBy_iff {next : Int32 → R → List (Int32 × R)}
    (hnext : ∀ c x e, e ∈ next c x → e ∈ s.scoredSons scoring terms c x) (l : Int32 × R) :
    (∃ path, Leads (fun c => (s.node c).sons) next 0 0 path l) ↔ s.LeafBy scoring terms next l := by
  constructor
  · rintro ⟨path, hp⟩
    obtain ⟨hlast, hsum⟩ := hp.sum hnext
    rw [zero_add] at hsum
    exact ⟨path, hp, hlast, hsum⟩
  · rintro ⟨path, hp, -⟩
    exact ⟨path, hp⟩

/-- The best leaf that a beam reaches is found, which is the best of all when
the beam is as wide as every family. -/
theorem getTopNClass_best (h : IsTree s.classNodeMap) (scoring : Scoring R)
    (terms : List (List UInt8 × Int32)) (topN : Nat) :
    ∃ predictOut,
      s.getTopNClass scoring terms topN s.classNodeMap.size 0 0 (0, 0) = some predictOut ∧
      Reports (s.LeafBy scoring terms (s.topSons scoring terms topN)) predictOut ∧
      (∀ c x, ∀ e ∈ s.topSons scoring terms topN c x, ∀ l ∈ s.scoredSons scoring terms c x,
        l ∉ s.topSons scoring terms topN c x → l.2 ≤ e.2) ∧
      ((∀ c, (s.node c).sons.length ≤ topN) →
        Reports (s.LeafBy scoring terms (s.scoredSons scoring terms)) predictOut) := by
  obtain ⟨depth, ht⟩ := h
  -- the classes below another are deeper, and no deeper than there are classes
  have hrank : ∀ c, ∀ d ∈ (s.node c).sons,
      s.classNodeMap.size - depth d < s.classNodeMap.size - depth c := by
    intro c d hd
    cases hc : s.classNodeMap.lookup c with
    | none =>
      rw [State.node, ClassMap.node, hc] at hd
      cases hd
    | some n =>
      have hl : links s.classNodeMap c = some (n.fatherId, n.sons) :=
        ClassMap.links_eq_some.mpr ⟨n, hc, rfl, rfl⟩
      rw [State.node, ClassMap.node_of_lookup hc] at hd
      obtain ⟨hne, ts, hld⟩ := ((ht.sons c _ _ hl).2 d).mp hd
      have hdepth := (ht.father d c ts hld hne).2
      have hbound := ht.bound c _ hl
      omega
  obtain ⟨out, hout, hbest⟩ := Beam.search_best (s.ownScore scoring terms) scoring.queue topN hrank
    (Nat.sub_le _ (depth 0)) 0 (0, 0)
  refine ⟨out, by rw [getTopNClass_eq, hout], reports_of_best (hbest.congr fun l => ?_),
    fun c x e he l hl hnot => Beam.beam_highest he hl hnot, fun hall => reports_of_best ?_⟩
  · exact leafBy_iff (fun _ _ _ he => Beam.mem_scored_of_mem_beam he) l
  · refine hbest.congr fun l => (Beam.reached_iff_below hall).trans ?_
    exact leafBy_iff (fun _ _ _ he => he) l

end

end

/-- A tree with two leaves below one class, and a term that has been learnt. -/
theorem getTopNClass_best_two :
    let tree :=
      ((State.init.loadRow ⟨1, 1, 0, [], 1⟩).loadRow ⟨2, 2, 1, [], 2⟩).loadRow ⟨3, 2, 1, [], 3⟩
    let s := { tree with
      termHashMap := (∅ : HashMap UInt32 UInt32).insert 4 0
      mNBTerms := [⟨5, 1, 1, text "phone", OrdMap.empty.insert 3 1, OrdMap.empty.insert 3 1⟩] }
    let scoring : Scoring ℚ :=
      { env := ⟨fun t => t.length.toUInt32, fun l _ => [l], fun _ => false⟩
        termScore := fun info count c =>
          info.idf.toInt * (count * (info.classDf.lookup c).getD 0).toInt / 2
        queue := .stable _ _ }
    let terms := [(text "cell", 2)]
    ∃ predictOut,
      s.getTopNClass scoring terms 1 s.classNodeMap.size 0 0 (0, 0) = some predictOut ∧
      Reports (s.LeafBy scoring terms (s.topSons scoring terms 1)) predictOut ∧
      (∀ c x, ∀ e ∈ s.topSons scoring terms 1 c x, ∀ l ∈ s.scoredSons scoring terms c x,
        l ∉ s.topSons scoring terms 1 c x → l.2 ≤ e.2) ∧
      ((∀ c, (s.node c).sons.length ≤ 1) →
        Reports (s.LeafBy scoring terms (s.scoredSons scoring terms)) predictOut) := by
  intro tree
  have htree : IsTree tree.classNodeMap :=
    isTree_loadRow (isTree_loadRow (isTree_loadRow isTree_init _) _) _
  clear_value tree
  intro s scoring terms
  exact getTopNClass_best (s := s) htree scoring terms 1

end TextMining.NBClassifier
