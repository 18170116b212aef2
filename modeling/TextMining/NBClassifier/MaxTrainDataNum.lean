import TextMining.NBClassifier.Ancestors
import TextMining.NBClassifier.Counters
import TextMining.NBClassifier.Dump
import Mathlib.Algebra.Order.Field.Basic
import Mathlib.Data.Rat.Cast.Order
import Mathlib.Order.Bounds.Basic

/-!
# The largest training numbers

`SetMaxTrainDataNum` is called with the sons of the root. It writes the largest
number of a list of siblings into their father and goes on with the sons of
each of them.
-/

namespace TextMining.NBClassifier

open ClassMap (links IsTree)
open Forest (Father)

-- ---------------------------------------------------------------------------
-- One list of siblings
-- ---------------------------------------------------------------------------

def ClassMap.maxTrainDataNum (m : ClassMap) (ids : List Int32) : Int32 :=
  ids.foldl (fun num id =>
    if num < (ClassMap.node m id).trainDataNum then (ClassMap.node m id).trainDataNum else num) 0

def ClassMap.trainDataNums (m : ClassMap) (ids : List Int32) : Set Int32 :=
  {num | ∃ id ∈ ids, (ClassMap.node m id).trainDataNum = num}

theorem isGreatest_foldl (train : Int32 → Int32) (ids : List Int32) (num : Int32) :
    IsGreatest {k | k = num ∨ ∃ id ∈ ids, train id = k}
      (ids.foldl (fun num id => if num < train id then train id else num) num) := by
  induction ids generalizing num with
  | nil =>
    refine ⟨.inl rfl, ?_⟩
    rintro k (rfl | ⟨id, hid, -⟩)
    · exact Int32.le_refl _
    · cases hid
  | cons id ids ih =>
    rw [List.foldl_cons]
    obtain ⟨hmem, hle⟩ := ih (if num < train id then train id else num)
    have hstep : num ≤ (if num < train id then train id else num) ∧
        train id ≤ (if num < train id then train id else num) := by
      split
      · rename_i hlt
        exact ⟨Int32.le_of_lt hlt, Int32.le_refl _⟩
      · rename_i hlt
        exact ⟨Int32.le_refl _, Int32.not_lt.mp hlt⟩
    have hfirst := hle (.inl rfl)
    refine ⟨?_, ?_⟩
    · rcases hmem with hmem | ⟨k, hk, hmem⟩
      · rw [hmem]
        split
        · exact .inr ⟨id, List.mem_cons_self, rfl⟩
        · exact .inl rfl
      · exact .inr ⟨k, List.mem_cons_of_mem _ hk, hmem⟩
    · rintro k (rfl | ⟨j, hj, rfl⟩)
      · exact Int32.le_trans hstep.1 hfirst
      · rcases List.mem_cons.mp hj with rfl | hj
        · exact Int32.le_trans hstep.2 hfirst
        · exact hle (.inr ⟨j, hj, rfl⟩)

section
variable {m n k : ClassMap} {c : Int32} {ids : List Int32}

/-- Where no number is negative the start of the loop, 0, does no harm. -/
theorem maxTrainDataNum_isGreatest (hne : ids ≠ [])
    (hnum : ∀ id ∈ ids, 0 ≤ (ClassMap.node m id).trainDataNum) :
    IsGreatest (m.trainDataNums ids) (m.maxTrainDataNum ids) := by
  obtain ⟨hmem, hle⟩ := isGreatest_foldl (fun id => (ClassMap.node m id).trainDataNum) ids 0
  refine ⟨?_, fun k hk => hle (.inr hk)⟩
  rcases hmem with hzero | hmem
  · obtain ⟨id, rest, rfl⟩ := List.exists_cons_of_ne_nil hne
    refine ⟨id, List.mem_cons_self, Int32.le_antisymm ?_ ?_⟩
    · exact hle (.inr ⟨id, List.mem_cons_self, rfl⟩)
    · rw [ClassMap.maxTrainDataNum, hzero]
      exact hnum id List.mem_cons_self
  · exact hmem

def Filled (m : ClassMap) (c : Int32) : Prop :=
  (ClassMap.node m c).sonMaxTrainDataNum = m.maxTrainDataNum (ClassMap.node m c).sons

/-- The recursion changes one member of the nodes, and only for the better. -/
structure Filling (m n : ClassMap) : Prop where
  same : SameClasses m n
  filled : ∀ c, Filled m c → Filled n c

theorem Filling.refl (m : ClassMap) : Filling m m := ⟨.refl m, fun _ h => h⟩

theorem Filling.trans (h : Filling m n) (h' : Filling n k) : Filling m k :=
  ⟨h.same.trans h'.same, fun c hc => h'.filled c (h.filled c hc)⟩

theorem SameClasses.sons (h : SameClasses m n) (c : Int32) :
    (ClassMap.node n c).sons = (ClassMap.node m c).sons := by
  rw [ClassMap.sons_node, h.links, ← ClassMap.sons_node]

theorem SameClasses.maxTrainDataNum (h : SameClasses m n) (ids : List Int32) :
    n.maxTrainDataNum ids = m.maxTrainDataNum ids := by
  simp only [ClassMap.maxTrainDataNum, h.train]

theorem filling_modify (hc : c ∈ m) (hids : (ClassMap.node m c).sons = ids) :
    Filling m (m.modify c fun n => { n with sonMaxTrainDataNum := m.maxTrainDataNum ids }) ∧
      Filled (m.modify c fun n => { n with sonMaxTrainDataNum := m.maxTrainDataNum ids }) c := by
  have hsame : SameClasses m
      (m.modify c fun n => { n with sonMaxTrainDataNum := m.maxTrainDataNum ids }) :=
    ⟨ClassMap.links_modify fun _ => ⟨rfl, rfl⟩, OrdMap.size_modify _ _ _,
      trainDataNum_modify fun _ => rfl⟩
  have hself : Filled
      (m.modify c fun n => { n with sonMaxTrainDataNum := m.maxTrainDataNum ids }) c := by
    obtain ⟨n, hn⟩ := OrdMap.mem_iff.mp hc
    rw [Filled, hsame.maxTrainDataNum, hsame.sons, hids, ClassMap.node, OrdMap.lookup_modify,
      if_pos rfl, hn]
    rfl
  refine ⟨⟨hsame, fun k hk => ?_⟩, hself⟩
  by_cases hkc : k = c
  · exact hkc ▸ hself
  · rw [Filled, hsame.maxTrainDataNum, hsame.sons, ClassMap.node, OrdMap.lookup_modify,
      if_neg hkc]
    exact hk

end

-- ---------------------------------------------------------------------------
-- The recursion
-- ---------------------------------------------------------------------------

/-- Every class from `id` down that has sons is filled. -/
def FilledBelow (m n : ClassMap) (id : Int32) : Prop :=
  ∀ c, Relation.ReflTransGen (Father 0 (links m)) c id → (ClassMap.node m c).sons ≠ [] → Filled n c

theorem FilledBelow.trans {m n k : ClassMap} {id : Int32} (h : FilledBelow m n id)
    (h' : Filling n k) : FilledBelow m k id := fun c hc hcs => h'.filled c (h c hc hcs)

theorem foldlM_filledBelow {m : ClassMap} {call : ClassMap → Int32 → Option ClassMap}
    {ids : List Int32} (hcall : ∀ id ∈ ids, ∀ n, Filling m n →
      ∃ k, call n id = some k ∧ Filling n k ∧ FilledBelow m k id) {n : ClassMap} (hn : Filling m n) :
    ∃ k, ids.foldlM call n = some k ∧ Filling n k ∧ ∀ id ∈ ids, FilledBelow m k id := by
  induction ids generalizing n with
  | nil => exact ⟨n, rfl, .refl n, fun id hid => absurd hid List.not_mem_nil⟩
  | cons id ids ih =>
    obtain ⟨mid, hmid, hfilling, hbelow⟩ := hcall id List.mem_cons_self n hn
    obtain ⟨k, hk, hrest, hlater⟩ :=
      ih (fun i hi => hcall i (List.mem_cons_of_mem id hi)) (hn.trans hfilling)
    refine ⟨k, ?_, hfilling.trans hrest, ?_⟩
    · rw [List.foldlM_cons, hmid]
      exact hk
    · rintro i hi
      rcases List.mem_cons.mp hi with rfl | hi
      · exact hbelow.trans hrest
      · exact hlater i hi

/-- The recursion from the sons of a class ends, and all classes from there on
that have sons are filled. -/
theorem setMaxTrainDataNum_spec {depth : Int32 → Nat} {fuel : Nat} {m : ClassMap}
    (ht : Forest.Tree 0 (links m) m.size depth) {f p : Int32} {ids : List Int32}
    (hf : links m f = some (p, ids)) (hne : ids ≠ []) (hfuel : m.size ≤ fuel + depth f) :
    ∃ n, setMaxTrainDataNum fuel ids m = some n ∧ Filling m n ∧ FilledBelow m n f := by
  induction fuel generalizing m f p ids with
  | zero =>
    have hlt := ht.bound f _ hf
    omega
  | succ fuel ih =>
    obtain ⟨first, rest, rfl⟩ := List.exists_cons_of_ne_nil hne
    obtain ⟨-, hsons⟩ := ht.sons f p _ hf
    have hfather : ∀ id ∈ first :: rest, (ClassMap.node m id).fatherId = f := fun id hid => by
      obtain ⟨-, ts, hl⟩ := (hsons id).mp hid
      obtain ⟨n, hn, hfn, -⟩ := ClassMap.links_eq_some.mp hl
      rw [ClassMap.node_of_lookup hn, hfn]
    have hexit : ¬ ∃ id ∈ first :: rest,
        (ClassMap.node m id).fatherId ≠ (ClassMap.node m first).fatherId := by
      rintro ⟨id, hid, hc⟩
      exact hc ((hfather id hid).trans (hfather first List.mem_cons_self).symm)
    -- the call for a son, if it has sons itself
    have hcall : ∀ id ∈ first :: rest, ∀ n, Filling m n →
        ∃ k, (if (ClassMap.node n id).sons = [] then some n
          else setMaxTrainDataNum fuel (ClassMap.node n id).sons n) = some k ∧
            Filling n k ∧ FilledBelow m k id := by
      intro id hid n hn
      obtain ⟨hid0, ts, hl⟩ := (hsons id).mp hid
      have hdepth := (ht.father id f ts hl hid0).2
      have hln : links n id = some (f, ts) := hn.same.links ▸ hl
      have hts : (ClassMap.node n id).sons = ts := by
        rw [ClassMap.sons_node, hln]
        rfl
      rw [hts]
      by_cases hleaf : ts = []
      · refine ⟨n, if_pos hleaf, .refl n, fun c hc hcs => ?_⟩
        rcases Relation.ReflTransGen.cases_tail hc with rfl | ⟨d, -, hd0, ss, hd⟩
        · exact absurd ((hn.same.sons _).symm.trans (hts.trans hleaf)) hcs
        · -- nothing is below a leaf
          have hmem := ((ht.sons id f ts hl).2 d).mpr ⟨hd0, ss, hd⟩
          rw [hleaf] at hmem
          cases hmem
      · obtain ⟨k, hk, hfilling, hbelow⟩ := ih (hn.same.links ▸ hn.same.size ▸ ht) hln
          hleaf (by rw [hn.same.size]; omega)
        refine ⟨k, (if_neg hleaf).trans hk, hfilling, fun c hc hcs => ?_⟩
        exact hbelow c (hn.same.links ▸ hc) ((hn.same.sons c).symm ▸ hcs)
    have hsonsf : (ClassMap.node m f).sons = first :: rest := by
      rw [ClassMap.sons_node, hf]
      rfl
    obtain ⟨hstep, hself⟩ := filling_modify (ClassMap.links_isSome.mp ⟨_, hf⟩) hsonsf
    obtain ⟨k, hk, hrest, hbelow⟩ := foldlM_filledBelow hcall hstep
    refine ⟨k, ?_, hstep.trans hrest, fun c hc hcs => ?_⟩
    · rw [setMaxTrainDataNum]
      simp only [if_neg hexit]
      rw [hfather first List.mem_cons_self]
      exact hk
    · rcases Relation.ReflTransGen.cases_tail hc with rfl | ⟨d, hcd, hd0, ss, hd⟩
      · exact hrest.filled _ hself
      · exact hbelow d ((hsons d).mpr ⟨hd0, ss, hd⟩) c hcd hcs

theorem setMaxTrainDataNum_root {m : ClassMap} (h : IsTree m)
    (hne : (ClassMap.node m 0).sons ≠ []) :
    ∃ n, setMaxTrainDataNum m.size (ClassMap.node m 0).sons m = some n ∧ SameClasses m n ∧
      ∀ c ∈ m, (ClassMap.node m c).sons ≠ [] → Filled n c := by
  obtain ⟨depth, ht⟩ := h
  obtain ⟨p, ids, hl⟩ := ht.top
  have hids : (ClassMap.node m 0).sons = ids := by
    rw [ClassMap.sons_node, hl]
    rfl
  rw [hids] at hne ⊢
  obtain ⟨n, hn, hfilling, hfilled⟩ := setMaxTrainDataNum_spec ht hl hne (Nat.le_add_right _ _)
  refine ⟨n, hn, hfilling.same, fun c hc => hfilled c ?_⟩
  exact ht.leads_to_root (ClassMap.links_isSome.mpr hc)

theorem setMaxTrainDataNum_nil (fuel : Nat) (m : ClassMap) :
    setMaxTrainDataNum fuel [] m = none := by cases fuel <;> rfl

-- ---------------------------------------------------------------------------
-- Priors
-- ---------------------------------------------------------------------------

/-- The divisor of the prior of a class, not rounded. -/
def exactDivisor (trainDataNum : Int32) : ℚ := 1 + (trainDataNum.toInt : ℚ)

/-- The prior of `NBPredictLine`, not rounded. -/
def exactPrior (sonMaxTrainDataNum trainDataNum : Int32) : ℚ :=
  (1 + (1 + (sonMaxTrainDataNum.toInt : ℚ))) / exactDivisor trainDataNum

theorem one_lt_exactPrior {son own : Int32} (hown : 0 ≤ own) (hle : own ≤ son) :
    0 < exactDivisor own ∧ 1 < exactPrior son own := by
  have hown' : (0 : ℚ) ≤ own.toInt := Int.cast_nonneg (Int32.le_iff_toInt_le.mp hown)
  have hle' : (own.toInt : ℚ) ≤ son.toInt := Int.cast_le.mpr (Int32.le_iff_toInt_le.mp hle)
  have hpos : 0 < exactDivisor own := by
    rw [exactDivisor]
    exact add_pos_of_pos_of_nonneg one_pos hown'
  refine ⟨hpos, ?_⟩
  rw [exactPrior, one_lt_div hpos, exactDivisor]
  calc 1 + (own.toInt : ℚ) ≤ 1 + (son.toInt : ℚ) := add_le_add_right hle' 1
    _ < 1 + (1 + (son.toInt : ℚ)) := lt_one_add _

section
variable {m : ClassMap} {depth : Int32 → Nat} {c id : Int32}

theorem mem_of_mem_sons (ht : Forest.Tree 0 (links m) m.size depth)
    (hid : id ∈ (ClassMap.node m c).sons) : id ∈ m ∧ id ≠ 0 := by
  rw [ClassMap.sons_node] at hid
  cases hl : links m c with
  | none =>
    rw [hl] at hid
    cases hid
  | some l =>
    rw [hl] at hid
    obtain ⟨hne, ts, hid⟩ := ((ht.sons c l.1 l.2 hl).2 id).mp hid
    exact ⟨ClassMap.links_isSome.mp ⟨_, hid⟩, hne⟩

theorem mem_sons_father (ht : Forest.Tree 0 (links m) m.size depth) (hc : c ∈ m) (hne : c ≠ 0) :
    (ClassMap.node m c).fatherId ∈ m ∧
      c ∈ (ClassMap.node m (ClassMap.node m c).fatherId).sons := by
  obtain ⟨a, ha⟩ := OrdMap.mem_iff.mp hc
  have hl : links m c = some (a.fatherId, a.sons) := ClassMap.links_eq_some.mpr ⟨a, ha, rfl, rfl⟩
  obtain ⟨⟨l, hf⟩, -⟩ := ht.father c _ _ hl hne
  rw [ClassMap.node_of_lookup ha, ClassMap.sons_node, hf]
  exact ⟨ClassMap.links_isSome.mp ⟨l, hf⟩, ((ht.sons _ _ _ hf).2 c).mpr ⟨hne, _, hl⟩⟩

theorem sons_root_ne_nil (ht : Forest.Tree 0 (links m) m.size depth) (hclass : ∃ c ∈ m, c ≠ 0) :
    (ClassMap.node m 0).sons ≠ [] := by
  obtain ⟨c, hc, hne⟩ := hclass
  have hpath := ht.leads_to_root (ClassMap.links_isSome.mpr hc)
  rcases Relation.ReflTransGen.cases_tail hpath with h0 | ⟨d, -, hd0, ss, hd⟩
  · exact absurd h0.symm hne
  · obtain ⟨p, ids, htop⟩ := ht.top
    have hmem := ((ht.sons 0 p ids htop).2 d).mpr ⟨hd0, ss, hd⟩
    rw [ClassMap.sons_node, htop]
    exact List.ne_nil_of_mem hmem

theorem SameClasses.fatherId {m n : ClassMap} (h : SameClasses m n) (c : Int32) :
    (ClassMap.node n c).fatherId = (ClassMap.node m c).fatherId := by
  rw [ClassMap.fatherId_node, h.links, ← ClassMap.fatherId_node]

end

/-- In a tree with a class and no negative training number the recursion ends
without the fatal exit, every class with sons gets their largest number, and
the prior of every class is greater than 1. -/
theorem setMaxTrainDataNum_priors {m : ClassMap} (h : IsTree m) (hclass : ∃ c ∈ m, c ≠ 0)
    (hnum : ∀ c ∈ m, c ≠ 0 → 0 ≤ (ClassMap.node m c).trainDataNum) :
    ∃ n, setMaxTrainDataNum m.size (ClassMap.node m 0).sons m = some n ∧ SameClasses m n ∧
      (ClassMap.node n 0).sons ≠ [] ∧
      (∀ c ∈ n, (ClassMap.node n c).sons ≠ [] →
        IsGreatest (n.trainDataNums (ClassMap.node n c).sons)
          (ClassMap.node n c).sonMaxTrainDataNum) ∧
      ∀ c ∈ n, c ≠ 0 → 0 < exactDivisor (ClassMap.node n c).trainDataNum ∧
        1 < exactPrior (ClassMap.node n (ClassMap.node n c).fatherId).sonMaxTrainDataNum
          (ClassMap.node n c).trainDataNum := by
  obtain ⟨depth, ht⟩ := h
  have hroot := sons_root_ne_nil ht hclass
  obtain ⟨n, hn, hsame, hfilled⟩ := setMaxTrainDataNum_root ⟨depth, ht⟩ hroot
  have hmem : ∀ c, c ∈ n ↔ c ∈ m := fun c => by
    rw [← ClassMap.links_isSome, hsame.links, ClassMap.links_isSome]
  have hgreatest : ∀ c ∈ m, (ClassMap.node n c).sons ≠ [] →
      IsGreatest (n.trainDataNums (ClassMap.node n c).sons)
        (ClassMap.node n c).sonMaxTrainDataNum := by
    intro c hc hcs
    rw [hfilled c hc ((hsame.sons c).symm ▸ hcs)]
    refine maxTrainDataNum_isGreatest hcs fun id hid => ?_
    obtain ⟨hidm, hne⟩ := mem_of_mem_sons ht ((hsame.sons c).symm ▸ hid)
    rw [hsame.train]
    exact hnum id hidm hne
  refine ⟨n, hn, hsame, (hsame.sons 0).symm ▸ hroot, fun c hc => hgreatest c ((hmem c).mp hc), ?_⟩
  intro c hc hne
  have hcm := (hmem c).mp hc
  obtain ⟨hf, hin⟩ := mem_sons_father ht hcm hne
  rw [hsame.fatherId]
  rw [← hsame.sons] at hin
  refine one_lt_exactPrior ?_ ?_
  · rw [hsame.train]
    exact hnum c hcm hne
  · exact (hgreatest _ hf (List.ne_nil_of_mem hin)).2 ⟨c, hin, rfl⟩

/-- Two classes below the root, the second one with 7 training items. -/
theorem setMaxTrainDataNum_priors_two : ∃ m n,
    (loadClassTree plainEnv twoClassTree).map (fun s =>
      s.classNodeMap.modify 2 fun n => { n with trainDataNum := 7 }) = some m ∧
    setMaxTrainDataNum m.size (ClassMap.node m 0).sons m = some n ∧
    IsGreatest (n.trainDataNums (ClassMap.node n 0).sons)
      (ClassMap.node n 0).sonMaxTrainDataNum := by
  obtain ⟨s, hs, htree, huntrained⟩ := loadClassTree_spec plainEnv twoClassTree
  have hids : (loadClassTree plainEnv twoClassTree).map (fun s => s.classNodeMap.keys) =
      some [0, 1, 2] := by decide +kernel
  rw [hs] at hids
  have hkeys : s.classNodeMap.keys = [0, 1, 2] := Option.some.inj hids
  have htree' : IsTree (s.classNodeMap.modify 2 fun n => { n with trainDataNum := 7 }) :=
    htree.congr (ClassMap.links_modify fun _ => ⟨rfl, rfl⟩) (OrdMap.size_modify _ _ _)
  have hmem : ∀ c ∈ [(0 : Int32), 1, 2], c ∈ s.classNodeMap.modify 2 fun n =>
      { n with trainDataNum := 7 } := fun c hc =>
    OrdMap.mem_modify.mpr (OrdMap.mem_def.mpr (hkeys ▸ hc))
  obtain ⟨n, hn, hsame, hne, hgreatest, -⟩ := setMaxTrainDataNum_priors htree'
    ⟨2, hmem 2 (by decide), by decide⟩ fun c hc _ => by
      have htrain := huntrained.train c
      rw [State.node, ClassMap.node] at htrain
      rw [ClassMap.node, OrdMap.lookup_modify]
      split
      · rename_i h2
        obtain ⟨a, ha⟩ := OrdMap.mem_iff.mp (OrdMap.mem_modify.mp hc)
        rw [← h2, ha]
        exact (by decide : (0 : Int32) ≤ 7)
      · exact htrain.symm ▸ Int32.le_refl 0
  have h0 : 0 ∈ n := by
    rw [← ClassMap.links_isSome, hsame.links, ClassMap.links_isSome]
    exact hmem 0 (by decide)
  exact ⟨_, n, by rw [hs, Option.map_some], hn, hgreatest 0 h0 hne⟩

end TextMining.NBClassifier
