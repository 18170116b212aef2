import TextMining.LandMark.Processor

/-!
# Ancestors in the landmark table

`IsFatherSon` follows the father links of a table whose links may go in
circles or nowhere, and inserts a default entry for every id it meets. A
default entry has type 0, so it ends a walk as a missing entry does.
-/

namespace TextMining.LandMark

-- ---------------------------------------------------------------------------
-- Default entries
-- ---------------------------------------------------------------------------

@[simp] theorem get_touch (m : Table) (id k : Int32) :
    Table.get (Table.touch m id) k = Table.get m k := by
  rw [Table.get, Table.touch, HashMap.insertNew]
  split
  · rfl
  · rename_i hm
    cases decEq k id with
    | isTrue hk =>
      subst hk
      rw [AList.lookup_insert, Table.get, AList.lookup_eq_none.mpr hm, Option.getD_some,
        Option.getD_none]
    | isFalse hk => rw [AList.lookup_insert_ne hk, Table.get]

theorem get_fatherLoop (father : Int32) (n : Nat) (tmpId : Int32) (m : Table) (k : Int32) :
    Table.get (fatherLoop father n tmpId m).2 k = Table.get m k := by
  induction n generalizing tmpId m with
  | zero => exact get_touch m tmpId k
  | succ n ih =>
    unfold fatherLoop
    simp only
    split
    · exact get_touch m tmpId k
    · split
      · rw [get_touch, get_touch]
      · rw [ih, get_touch]

theorem fatherLoop_congr {m m' : Table} (h : ∀ k, Table.get m k = Table.get m' k) (father : Int32)
    (n : Nat) (tmpId : Int32) :
    (fatherLoop father n tmpId m).1 = (fatherLoop father n tmpId m').1 := by
  induction n generalizing tmpId m m' with
  | zero => rfl
  | succ n ih =>
    unfold fatherLoop
    simp only [get_touch, h]
    split
    · rfl
    · split
      · rfl
      · exact ih (fun k => by rw [get_touch, get_touch, h]) _

theorem get_isFatherSon (father son : Int32) (m : Table) (k : Int32) :
    Table.get (isFatherSon father son m).2 k = Table.get m k := by
  unfold isFatherSon
  simp only
  split
  · simp
  · split
    · simp
    · rw [get_fatherLoop, get_touch, get_touch]

theorem isFatherSon_congr {m m' : Table} (h : ∀ k, Table.get m k = Table.get m' k)
    (father son : Int32) : (isFatherSon father son m).1 = (isFatherSon father son m').1 := by
  unfold isFatherSon
  simp only [get_touch, h]
  split
  · rfl
  · split
    · rfl
    · exact fatherLoop_congr (fun k => by simp only [get_touch, h]) father 10 son

-- ---------------------------------------------------------------------------
-- Links
-- ---------------------------------------------------------------------------

/-- The entry is there and below the provinces. -/
def Below (m : Table) (id : Int32) : Prop := ∃ item, m.lookup id = some item ∧ 1 < item.type

def Link (m : Table) (son father : Int32) : Prop :=
  ∃ item, m.lookup son = some item ∧ 1 < item.type ∧ item.fatherId = father

inductive Leads (m : Table) : Nat → Int32 → Int32 → Prop
  | none (id : Int32) : Leads m 0 id id
  | next {n : Nat} {son id father : Int32} : Link m son id → Leads m n id father →
    Leads m (n + 1) son father

def Ancestor (m : Table) (father son : Int32) : Prop :=
  Below m father ∧ Below m son ∧ ∃ n, 1 ≤ n ∧ n ≤ 10 ∧ Leads m n son father

def Reached (m : Table) (father son : Int32) : Prop :=
  Below m father ∧ Below m son ∧ ∃ n ≤ 10, Leads m n son father

def runCalls : List (Int32 × Int32) → Table → List Bool × Table
  | [], m => ([], m)
  | call :: calls, m =>
    let (answer, m) := isFatherSon call.1 call.2 m
    let (answers, m) := runCalls calls m
    (answer :: answers, m)

section
variable {m : Table} {father son id : Int32}

theorem below_iff : Below m id ↔ 1 < (Table.get m id).type := by
  rw [Below, Table.get]
  cases m.lookup id with
  | none => exact iff_of_false (fun ⟨_, h, _⟩ => nomatch h) (by decide)
  | some item => simp

theorem link_iff : Link m son father ↔
    1 < (Table.get m son).type ∧ (Table.get m son).fatherId = father := by
  rw [Link, Table.get]
  cases m.lookup son with
  | none => exact iff_of_false (fun ⟨_, h, _⟩ => nomatch h) fun h => absurd h.1 (by decide)
  | some item => simp

theorem leads_zero : Leads m 0 son father ↔ son = father := by
  constructor
  · intro h
    cases h with
    | none => rfl
  · rintro rfl
    exact .none son

theorem leads_succ {n : Nat} : Leads m (n + 1) son father ↔
    1 < (Table.get m son).type ∧ Leads m n (Table.get m son).fatherId father := by
  constructor
  · intro h
    cases h with
    | next hl hrest =>
      obtain ⟨ht, rfl⟩ := link_iff.mp hl
      exact ⟨ht, hrest⟩
  · rintro ⟨ht, hrest⟩
    exact .next (link_iff.mpr ⟨ht, rfl⟩) hrest

theorem exists_leads_succ {n : Nat} : (∃ k, 1 ≤ k ∧ k ≤ n + 1 ∧ Leads m k son father) ↔
    1 < (Table.get m son).type ∧ ((Table.get m son).fatherId = father ∨
      ∃ k, 1 ≤ k ∧ k ≤ n ∧ Leads m k (Table.get m son).fatherId father) := by
  constructor
  · rintro ⟨k, hpos, hk, hl⟩
    obtain ⟨k, rfl⟩ := Nat.exists_eq_succ_of_ne_zero (Nat.ne_of_gt hpos)
    obtain ⟨ht, hrest⟩ := leads_succ.mp hl
    refine ⟨ht, ?_⟩
    cases k with
    | zero => exact .inl (leads_zero.mp hrest)
    | succ k => exact .inr ⟨k + 1, Nat.succ_pos k, Nat.le_of_succ_le_succ hk, hrest⟩
  · rintro ⟨ht, hf | ⟨k, hpos, hk, hrest⟩⟩
    · exact ⟨1, Nat.le_refl 1, Nat.succ_pos n, leads_succ.mpr ⟨ht, leads_zero.mpr hf⟩⟩
    · exact ⟨k + 1, Nat.succ_pos k, Nat.succ_le_succ hk, leads_succ.mpr ⟨ht, hrest⟩⟩

theorem fatherLoop_iff {n : Nat} {m' : Table} (h : ∀ k, Table.get m' k = Table.get m k) :
    (fatherLoop father n son m').1 = true ↔ ∃ k, 1 ≤ k ∧ k ≤ n ∧ Leads m k son father := by
  induction n generalizing son m' with
  | zero =>
    refine iff_of_false Bool.false_ne_true ?_
    rintro ⟨k, hpos, hk, -⟩
    exact Nat.not_succ_le_zero _ (hpos.trans hk)
  | succ n ih =>
    rw [exists_leads_succ]
    unfold fatherLoop
    simp only [get_touch, h]
    split
    · rename_i hle
      exact iff_of_false Bool.false_ne_true fun ⟨ht, _⟩ => Int32.not_lt.mpr hle ht
    · rename_i hgt
      rw [and_iff_right (Int32.not_le.mp hgt)]
      split
      · rename_i hf
        exact iff_of_true rfl (.inl hf)
      · rename_i hf
        rw [or_iff_right hf]
        exact ih fun k => by rw [get_touch, h]

theorem isFatherSon_iff : (isFatherSon father son m).1 = true ↔ Ancestor m father son := by
  rw [Ancestor, below_iff, below_iff]
  unfold isFatherSon
  simp only [get_touch]
  split
  · rename_i hle
    exact iff_of_false Bool.false_ne_true fun h => Int32.not_lt.mpr hle h.1
  · rename_i hfather
    rw [and_iff_right (Int32.not_le.mp hfather)]
    split
    · rename_i hle
      exact iff_of_false Bool.false_ne_true fun h => Int32.not_lt.mpr hle h.1
    · rename_i hson
      rw [and_iff_right (Int32.not_le.mp hson)]
      exact fatherLoop_iff fun k => by rw [get_touch, get_touch]

end

/-- Every call of a sequence answers for the table before the first of them. -/
theorem runCalls_answers (m : Table) (calls : List (Int32 × Int32)) :
    List.Forall₂ (fun call answer => answer = true ↔ Ancestor m call.1 call.2) calls
      (runCalls calls m).1 := by
  suffices h : ∀ m', (∀ k, Table.get m' k = Table.get m k) →
      List.Forall₂ (fun call answer => answer = true ↔ Ancestor m call.1 call.2) calls
        (runCalls calls m').1 from h m fun _ => rfl
  induction calls with
  | nil => exact fun _ _ => .nil
  | cons call calls ih =>
    intro m' h
    refine .cons ?_ (ih _ fun k => (get_isFatherSon call.1 call.2 m' k).trans (h k))
    exact (congrArg (· = true) (isFatherSon_congr h call.1 call.2)).to_iff.trans isFatherSon_iff

/-- A city whose father is not in the table is no ancestor of itself, although no
link is needed to get from it to it. -/
theorem self_not_answered : ∃ s, loadInfo [⟨text "bjbj\t1\t0\t2\r", fun _ => 0⟩] [] = some s ∧
    ¬ List.Forall₂ (fun call answer => answer = true ↔ Reached s.mLandmarkInfo call.1 call.2)
      [(1, 1)] (runCalls [(1, 1)] s.mLandmarkInfo).1 := by
  have hload : (loadInfo [⟨text "bjbj\t1\t0\t2\r", fun _ => 0⟩] []).map (fun s =>
      (s.mLandmarkInfo.lookup 1, (isFatherSon 1 1 s.mLandmarkInfo).1)) =
        some (some ⟨1, 0, text "bjbj", 2⟩, false) := by decide +kernel
  obtain ⟨s, hs, hone⟩ := Option.map_eq_some_iff.mp hload
  obtain ⟨hlookup, hanswer⟩ := Prod.mk.inj hone
  have hbelow : Below s.mLandmarkInfo 1 := ⟨_, hlookup, by decide⟩
  refine ⟨s, hs, fun h => ?_⟩
  have hcall : (isFatherSon 1 1 s.mLandmarkInfo).1 = true ↔ Reached s.mLandmarkInfo 1 1 :=
    (List.forall₂_cons.mp h).1
  rw [hanswer] at hcall
  exact Bool.false_ne_true (hcall.mpr ⟨hbelow, hbelow, 0, Nat.zero_le 10, .none 1⟩)

end TextMining.LandMark
