import TextMining.Lib.Codec
import TextMining.Lib.Float
import TextMining.Lib.OrdMap

/-!
# Training lines

The loop of `PrepareTrainingData::ParseLineOriginal` over the terms of a text
and the line it writes. The terms are counted by their hashes, and the hashes
are reduced when they are written: terms that are counted apart can be written
under one feature.
-/

namespace TextMining.Classifier

structure WordItem where
  term : List UInt8
  idf : Int32

/-- `idf <= 3`, with the `idf` of the loop. -/
def WordItem.lowIdf (item : WordItem) : Bool := (float item.idf.toInt).tdiv 10 ≤ 3

def recorded (items : List WordItem) : List (List UInt8) :=
  (items.filter fun item => !item.lowIdf).map WordItem.term

/-- The hash of `hashlittle`, and a sort by the features that puts pairs of one
feature in any order. -/
structure Env where
  hashlittle : List UInt8 → UInt32
  sort : List (UInt32 × Nat) → List (UInt32 × Nat)
  perm : ∀ l, (sort l).Perm l
  sorted : ∀ l, ((sort l).map Prod.fst).Pairwise (· ≤ ·)

namespace Env

variable (env : Env)

/-- A text has fewer than 2 ^ 32 terms, so a weight does not wrap around. -/
def addTerm (lineOutput : OrdMap UInt32 Nat) (term : List UInt8) : OrdMap UInt32 Nat :=
  let hashValue := env.hashlittle term
  let weight := 1
  match lineOutput.lookup hashValue with
  | none => lineOutput.insert hashValue weight
  | some n => lineOutput.insert hashValue (n + weight)

def lineOutput (terms : List (List UInt8)) : OrdMap UInt32 Nat := terms.foldl env.addTerm .empty

/-- `vtmp` after it is sorted. -/
def features (terms : List (List UInt8)) : List (UInt32 × Nat) :=
  env.sort ((env.lineOutput terms).entries.map fun e => (e.1 % 2147483647, e.2))

end Env

def featureText (e : UInt32 × Nat) : List UInt8 :=
  decimal e.1.toNat ++ 58 :: (decimal e.2 ++ [32])

def Env.featurePart (env : Env) (items : List WordItem) : List UInt8 :=
  (env.features (recorded items)).flatMap featureText

def Env.lineOriginal (env : Env) (dataClass : List UInt8) (items : List WordItem) : List UInt8 :=
  dataClass ++ 32 :: (env.featurePart items ++ [10])

-- ---------------------------------------------------------------------------
-- The text of the features
-- ---------------------------------------------------------------------------

theorem decimal_inj {m n : Nat} (h : decimal m = decimal n) : m = n := by
  rw [← digitsValue_decimal m, h, digitsValue_decimal]

theorem decimal_append_inj {m n : Nat} {b : UInt8} {s t : List UInt8} (hb : isDigit b = false)
    (h : decimal m ++ b :: s = decimal n ++ b :: t) : m = n ∧ s = t := by
  have hread : ∀ n t, (decimal n ++ b :: t).takeWhile isDigit = decimal n :=
    fun n t => takeWhile_decimal n (by simpa using hb)
  have hnum := congrArg (List.takeWhile isDigit) h
  rw [hread, hread] at hnum
  obtain rfl := decimal_inj hnum
  rw [List.append_cancel_left_eq, List.cons_inj_right] at h
  exact ⟨rfl, h⟩

theorem featureText_append_inj {e f : UInt32 × Nat} {s t : List UInt8}
    (h : featureText e ++ s = featureText f ++ t) : e = f ∧ s = t := by
  simp only [featureText, List.append_assoc, List.cons_append, List.nil_append] at h
  obtain ⟨hfeature, hrest⟩ := decimal_append_inj (by decide) h
  obtain ⟨hweight, hs⟩ := decimal_append_inj (by decide) hrest
  exact ⟨Prod.ext (UInt32.toNat_inj.mp hfeature) hweight, hs⟩

theorem flatMap_featureText_inj {v w : List (UInt32 × Nat)}
    (h : v.flatMap featureText = w.flatMap featureText) : v = w := by
  induction v generalizing w with
  | nil =>
    cases w with
    | nil => rfl
    | cons f w => simp [featureText, decimal_ne_nil] at h
  | cons e v ih =>
    cases w with
    | nil => simp [featureText, decimal_ne_nil] at h
    | cons f w =>
      rw [List.flatMap_cons, List.flatMap_cons] at h
      obtain ⟨rfl, hrest⟩ := featureText_append_inj h
      rw [ih hrest]

-- ---------------------------------------------------------------------------
-- Counting
-- ---------------------------------------------------------------------------

section
variable {env : Env}

theorem addTerm_eq (m : OrdMap UInt32 Nat) (term : List UInt8) :
    env.addTerm m term =
      m.insert (env.hashlittle term) ((m.lookup (env.hashlittle term)).getD 0 + 1) := by
  rw [Env.addTerm]
  cases m.lookup (env.hashlittle term) <;> rfl

theorem foldl_addTerm (env : Env) (terms : List (List UInt8)) (m : OrdMap UInt32 Nat) :
    ((terms.foldl env.addTerm m).entries.map Prod.snd).sum =
        (m.entries.map Prod.snd).sum + terms.length ∧
      ∀ k, k ∈ terms.foldl env.addTerm m ↔ k ∈ m ∨ ∃ t ∈ terms, env.hashlittle t = k := by
  induction terms generalizing m with
  | nil => simp
  | cons term terms ih =>
    obtain ⟨hsum, hkeys⟩ := ih (env.addTerm m term)
    have hstep := m.sum_insert (env.hashlittle term) ((m.lookup (env.hashlittle term)).getD 0 + 1)
    rw [List.foldl_cons]
    constructor
    · rw [hsum, addTerm_eq, List.length_cons]
      omega
    · intro k
      rw [hkeys k, addTerm_eq, OrdMap.mem_insert, or_comm (a := k = _), or_assoc]
      simp [eq_comm]

theorem sum_lineOutput (terms : List (List UInt8)) :
    ((env.lineOutput terms).entries.map Prod.snd).sum = terms.length := by
  rw [Env.lineOutput, (foldl_addTerm env terms .empty).1]
  exact Nat.zero_add _

theorem mem_lineOutput {terms : List (List UInt8)} {k : UInt32} :
    k ∈ env.lineOutput terms ↔ ∃ t ∈ terms, env.hashlittle t = k := by
  rw [Env.lineOutput, (foldl_addTerm env terms .empty).2 k]
  exact or_iff_right List.not_mem_nil

theorem sum_features (terms : List (List UInt8)) :
    ((env.features terms).map Prod.snd).sum = terms.length := by
  have hperm : ((env.features terms).map Prod.snd).sum = _ := ((env.perm _).map Prod.snd).sum_eq
  rw [hperm, List.map_map]
  exact sum_lineOutput terms

theorem pairwise_features_iff (terms : List (List UInt8)) :
    ((env.features terms).map Prod.fst).Pairwise (· < ·) ↔
      ((env.lineOutput terms).keys.map (· % 2147483647)).Nodup := by
  have hmap : ((env.lineOutput terms).entries.map fun e => (e.1 % 2147483647, e.2)).map Prod.fst =
      (env.lineOutput terms).keys.map (· % 2147483647) := by
    rw [OrdMap.keys, List.map_map, List.map_map]
    rfl
  rw [← hmap, ← ((env.perm _).map Prod.fst).nodup_iff]
  constructor
  · exact fun h => h.imp ne_of_lt
  · exact fun h => (env.sorted _).imp₂ (fun _ _ => lt_of_le_of_ne) h

end

-- ---------------------------------------------------------------------------
-- Sparse vectors
-- ---------------------------------------------------------------------------

/-- The features grow strictly, and the weights sum to `n`. -/
structure SparseVector (v : List (UInt32 × Nat)) (n : Nat) : Prop where
  increasing : (v.map Prod.fst).Pairwise (· < ·)
  total : (v.map Prod.snd).sum = n

/-- Different hashes of terms stay different when they are reduced. -/
def KeptApart (hashlittle : List UInt8 → UInt32) (terms : List (List UInt8)) : Prop :=
  ∀ t ∈ terms, ∀ u ∈ terms, hashlittle t ≠ hashlittle u →
    hashlittle t % 2147483647 ≠ hashlittle u % 2147483647

theorem nodup_map_iff_keptApart (env : Env) (terms : List (List UInt8)) :
    ((env.lineOutput terms).keys.map (· % 2147483647)).Nodup ↔ KeptApart env.hashlittle terms := by
  rw [List.nodup_map_iff_inj_on (env.lineOutput terms).nodup_keys]
  constructor
  · intro h t ht u hu hne he
    exact hne (h _ (mem_lineOutput.mpr ⟨t, ht, rfl⟩) _ (mem_lineOutput.mpr ⟨u, hu, rfl⟩) he)
  · intro h k hk l hl he
    obtain ⟨t, ht, rfl⟩ := mem_lineOutput.mp hk
    obtain ⟨u, hu, rfl⟩ := mem_lineOutput.mp hl
    by_contra hne
    exact h t ht u hu hne he

/-- The feature part of a line is a sparse vector with as many terms as the
text. -/
theorem sparseVector_iff (env : Env) (items : List WordItem) :
    (∃ v, env.featurePart items = v.flatMap featureText ∧
        SparseVector v (recorded items).length) ↔
      KeptApart env.hashlittle (recorded items) := by
  rw [← nodup_map_iff_keptApart env, ← pairwise_features_iff]
  constructor
  · rintro ⟨v, hpart, hv⟩
    rw [flatMap_featureText_inj hpart]
    exact hv.increasing
  · exact fun h => ⟨_, rfl, h, sum_features _⟩

def Env.stable (hashlittle : List UInt8 → UInt32) : Env where
  hashlittle := hashlittle
  sort l := l.mergeSort fun e f => e.1 ≤ f.1
  perm l := List.mergeSort_perm l _
  sorted l := by
    have h : (l.mergeSort fun e f => e.1 ≤ f.1).Pairwise fun e f => decide (e.1 ≤ f.1) = true := by
      apply List.pairwise_mergeSort
      · intro a b c hab hbc
        exact decide_eq_true (le_trans (of_decide_eq_true hab) (of_decide_eq_true hbc))
      · intro a b
        simpa using le_total a.1 b.1
    exact List.pairwise_map.mpr (h.imp fun hab => of_decide_eq_true hab)

/-- The hashes of two terms that are 2 ^ 31 - 1 apart. -/
theorem not_sparseVector_two :
    let env := Env.stable fun t => if t = text "a" then 0 else 2147483647
    let items := [⟨text "a", 50⟩, ⟨text "b", 50⟩]
    ¬∃ v, env.featurePart items = v.flatMap featureText ∧
      SparseVector v (recorded items).length := by
  rintro env items ⟨v, hpart, hv⟩
  have hfeatures : env.features (recorded items) = v := flatMap_featureText_inj hpart
  have hlt := hv.increasing
  rw [← hfeatures, pairwise_features_iff] at hlt
  exact absurd hlt (by decide +kernel)

end TextMining.Classifier
