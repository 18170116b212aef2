import Mathlib.Data.List.Count
import Mathlib.Data.List.Induction
import Mathlib.Logic.Function.Iterate
import Mathlib.Data.Set.Function

/-!
# Counting co-occurrences

An index keeps, for every key seen, some data and a partial function from the
keys it was seen with to records. Adding a line updates the data of each of
its keys once and the record of each ordered pair of different keys once. The
index of a list of lines is determined by how many lines have a key and how
many have a pair.
-/

namespace TextMining.Cooc

variable {K D R : Type*} [DecidableEq K]

structure Entry (K D R : Type*) where
  data : D
  related : K → Option R

abbrev Index (K D R : Type*) := K → Option (Entry K D R)

def Index.empty : Index K D R := fun _ => none

-- ---------------------------------------------------------------------------
-- Numbers of lines
-- ---------------------------------------------------------------------------

def occurrences (lines : List (List K)) (a : K) : Nat := lines.countP fun line => a ∈ line

def cooccurrences (lines : List (List K)) (a b : K) : Nat :=
  lines.countP fun line => a ∈ line ∧ b ∈ line

theorem occurrences_concat (lines : List (List K)) (line : List K) (a : K) :
    occurrences (lines ++ [line]) a = occurrences lines a + if a ∈ line then 1 else 0 := by
  simp [occurrences, List.countP_append, List.countP_singleton]

theorem cooccurrences_concat (lines : List (List K)) (line : List K) (a b : K) :
    cooccurrences (lines ++ [line]) a b =
      cooccurrences lines a b + if a ∈ line ∧ b ∈ line then 1 else 0 := by
  simp [cooccurrences, List.countP_append, List.countP_singleton]

theorem occurrences_pos {lines : List (List K)} {a : K} :
    0 < occurrences lines a ↔ ∃ line ∈ lines, a ∈ line := by
  simp [occurrences, List.countP_pos_iff]

theorem cooccurrences_pos {lines : List (List K)} {a b : K} :
    0 < cooccurrences lines a b ↔ ∃ line ∈ lines, a ∈ line ∧ b ∈ line := by
  simp [cooccurrences, List.countP_pos_iff]

theorem occurrences_le (lines : List (List K)) (a : K) : occurrences lines a ≤ lines.length :=
  List.countP_le_length

theorem cooccurrences_le (lines : List (List K)) (a b : K) :
    cooccurrences lines a b ≤ occurrences lines a :=
  List.countP_mono_left fun _ _ h => by simpa using (of_decide_eq_true h).1

theorem cooccurrences_of_occurrences {lines : List (List K)} {a : K} (h : occurrences lines a = 0)
    (b : K) : cooccurrences lines a b = 0 :=
  Nat.le_zero.mp (h ▸ cooccurrences_le lines a b)

section
variable {T : Type*} [DecidableEq T] {f : T → K} {lines : List (List T)} {s : Set T}

omit [DecidableEq K] [DecidableEq T] in
theorem mem_map_injOn (hf : Set.InjOn f s) {line : List T} (hl : ∀ x ∈ line, x ∈ s) {a : T}
    (ha : a ∈ s) : f a ∈ line.map f ↔ a ∈ line := by
  refine ⟨fun h => ?_, fun h => List.mem_map_of_mem h⟩
  obtain ⟨x, hx, he⟩ := List.mem_map.mp h
  exact hf (hl x hx) ha he ▸ hx

theorem occurrences_map (hf : Set.InjOn f s) (hl : ∀ line ∈ lines, ∀ x ∈ line, x ∈ s) {a : T}
    (ha : a ∈ s) : occurrences (lines.map (List.map f)) (f a) = occurrences lines a := by
  rw [occurrences, List.countP_map, occurrences]
  refine List.countP_congr fun line hline => ?_
  simp only [Function.comp_apply, decide_eq_true_eq]
  exact mem_map_injOn hf (hl line hline) ha

theorem cooccurrences_map (hf : Set.InjOn f s) (hl : ∀ line ∈ lines, ∀ x ∈ line, x ∈ s) {a b : T}
    (ha : a ∈ s) (hb : b ∈ s) :
    cooccurrences (lines.map (List.map f)) (f a) (f b) = cooccurrences lines a b := by
  rw [cooccurrences, List.countP_map, cooccurrences]
  refine List.countP_congr fun line hline => ?_
  simp only [Function.comp_apply, decide_eq_true_eq]
  exact and_congr (mem_map_injOn hf (hl line hline) ha) (mem_map_injOn hf (hl line hline) hb)

end

-- ---------------------------------------------------------------------------
-- Updates
-- ---------------------------------------------------------------------------

def Index.record (again : D → D) (new : D) (v : Index K D R) (a : K) : Index K D R :=
  Function.update v a <| some <|
    match v a with
    | none => ⟨new, fun _ => none⟩
    | some e => { e with data := again e.data }

def Index.bump (next : Option R → R) (v : Index K D R) (a b : K) : Index K D R :=
  Function.update v a <| (v a).map fun e =>
    { e with related := Function.update e.related b (some (next (e.related b))) }

theorem foldl_bump (next : Option R → R) {ps : List (K × K)} (hd : ps.Nodup) (v : Index K D R)
    (a : K) :
    ps.foldl (fun v p => v.bump next p.1 p.2) v a = (v a).map fun e =>
      { e with related := fun b => if (a, b) ∈ ps then some (next (e.related b)) else e.related b } := by
  induction ps generalizing v with
  | nil => cases h : v a <;> simp [h]
  | cons p ps ih =>
    obtain ⟨hp, hd⟩ := List.nodup_cons.mp hd
    rw [List.foldl_cons, ih hd]
    by_cases ha : a = p.1
    · subst ha
      simp only [Index.bump, Function.update_self, Option.map_map]
      congr 1
      funext e
      simp only [Function.comp_apply, Entry.mk.injEq, true_and]
      funext b
      by_cases hb : b = p.2
      · subst hb
        simp [hp]
      · simp [Prod.ext_iff, hb]
    · have hne : ∀ b, ((a, b) = p) = False := fun b => by simp [Prod.ext_iff, ha]
      simp [Index.bump, Function.update_of_ne ha, hne]

def Index.addLine (next : Option R → R) (again : D → D) (new : K → D) (v : Index K D R)
    (keys : List K) : Index K D R := fun a =>
  if a ∈ keys then (v.record again (new a) a a).map fun e =>
    { e with related := fun b =>
        if b ∈ keys ∧ b ≠ a then some (next (e.related b)) else e.related b }
  else v a

theorem Index.addLine_congr {next : Option R → R} {again : D → D} {new new' : K → D}
    {keys : List K} (h : ∀ a ∈ keys, new a = new' a) (v : Index K D R) :
    v.addLine next again new keys = v.addLine next again new' keys := by
  funext a
  unfold Index.addLine
  split
  · rename_i ha
    rw [h a ha]
  · rfl

def Index.map {D' R' : Type*} (f : D → D') (g : R → R') (v : Index K D R) : Index K D' R' :=
  fun a => (v a).map fun e => ⟨f e.data, fun b => (e.related b).map g⟩

theorem Index.map_addLine {D' R' : Type*} {f : D → D'} {g : R → R'} {next : Option R → R}
    {next' : Option R' → R'} {again : D → D} {again' : D' → D'}
    (hnext : ∀ r, g (next r) = next' (r.map g)) (hagain : ∀ d, f (again d) = again' (f d))
    (new : K → D) (v : Index K D R) (keys : List K) :
    (v.addLine next again new keys).map f g =
      (v.map f g).addLine next' again' (fun a => f (new a)) keys := by
  funext a
  have hmap : v.map f g a = (v a).map fun e => ⟨f e.data, fun b => (e.related b).map g⟩ := rfl
  unfold Index.addLine
  rw [Index.map]
  split
  · simp only [Index.record, Function.update_self, hmap]
    cases v a with
    | none =>
      simp only [Option.map_none, Option.map_some, Option.some.injEq, Entry.mk.injEq, true_and]
      funext b
      split <;> simp [hnext]
    | some e =>
      simp only [Option.map_some, hagain, Option.some.injEq, Entry.mk.injEq, true_and]
      funext b
      split <;> simp [hnext]
  · exact hmap.symm

theorem Index.forall_addLine {P : D → Prop} {again : D → D} {new : K → D}
    (hagain : ∀ d, P d → P (again d)) (hnew : ∀ a, P (new a)) {v : Index K D R}
    (hv : ∀ a e, v a = some e → P e.data) (next : Option R → R) (keys : List K) :
    ∀ a e, v.addLine next again new keys a = some e → P e.data := by
  intro a e he
  unfold Index.addLine at he
  split at he
  · simp only [Index.record, Function.update_self, Option.map_some, Option.some.injEq] at he
    subst he
    cases hva : v a with
    | none => exact hnew a
    | some e => exact hagain _ (hv a e hva)
  · exact hv a e he

def Index.dataOf (v : Index K D R) : K → Option D := fun a => (v a).map Entry.data

theorem Index.dataOf_record (again : D → D) (new : D) {v w : Index K D R}
    (h : v.dataOf = w.dataOf) (a : K) :
    (v.record again new a a).map Entry.data = (w.record again new a a).map Entry.data := by
  have ha : (v a).map Entry.data = (w a).map Entry.data := congrFun h a
  simp only [Index.record, Function.update_self, Option.map_some]
  cases hv : v a with
  | none =>
    cases hw : w a with
    | none => rfl
    | some e' => simp [hv, hw] at ha
  | some e =>
    cases hw : w a with
    | none => simp [hv, hw] at ha
    | some e' =>
      have hd : e.data = e'.data := by simpa [hv, hw] using ha
      simp only [hd]

theorem Index.dataOf_addLine (next : Option R → R) (again : D → D) (new : K → D)
    {v w : Index K D R} (h : v.dataOf = w.dataOf) (keys : List K) :
    (v.addLine next again new keys).dataOf = (w.addLine next again new keys).dataOf := by
  funext a
  simp only [Index.dataOf, Index.addLine]
  split
  · simp only [Option.map_map, Function.comp_def]
    exact Index.dataOf_record again (new a) h a
  · exact congrFun h a

-- ---------------------------------------------------------------------------
-- The counting law
-- ---------------------------------------------------------------------------

def recordAfter (next : Option R → R) (n : Nat) : Option R := (fun r => some (next r))^[n] none

theorem recordAfter_succ (next : Option R → R) (n : Nat) :
    recordAfter next (n + 1) = some (next (recordAfter next n)) :=
  Function.iterate_succ_apply' _ _ _

/-- What the numbers of lines say the index is. -/
def tally (next : Option R → R) (again : D → D) (new : K → D) (lines : List (List K)) :
    Index K D R := fun a =>
  match occurrences lines a with
  | 0 => none
  | n + 1 => some
    { data := again^[n] (new a)
      related := fun b => if b = a then none else recordAfter next (cooccurrences lines a b) }

theorem foldl_addLine (next : Option R → R) (again : D → D) (new : K → D) (lines : List (List K)) :
    lines.foldl (fun v line => Index.addLine next again new v line) Index.empty =
      tally next again new lines := by
  induction lines using List.reverseRecOn with
  | nil =>
    funext a
    simp [tally, occurrences, Index.empty]
  | append_singleton lines line ih =>
    rw [List.foldl_append, List.foldl_cons, List.foldl_nil, ih]
    funext a
    by_cases ha : a ∈ line
    · rw [Index.addLine, if_pos ha, tally, occurrences_concat, if_pos ha]
      simp only [Index.record, Function.update_self, Option.map_some, Option.some.injEq]
      cases hn : occurrences lines a with
      | zero =>
        simp only [tally, hn, Entry.mk.injEq, Function.iterate_zero, id_eq, true_and]
        funext b
        by_cases hb : b = a
        · simp [hb]
        · by_cases hm : b ∈ line <;>
            simp [hb, hm, ha, cooccurrences_concat, cooccurrences_of_occurrences hn, recordAfter]
      | succ n =>
        simp only [tally, hn, Entry.mk.injEq, Function.iterate_succ_apply', true_and]
        funext b
        by_cases hb : b = a
        · simp [hb]
        · by_cases hm : b ∈ line <;>
            simp [hb, hm, ha, cooccurrences_concat, recordAfter_succ]
    · rw [Index.addLine, if_neg ha, tally, tally, occurrences_concat, if_neg ha]
      simp only [cooccurrences_concat, ha, false_and, if_false, Nat.add_zero]

-- ---------------------------------------------------------------------------
-- Symmetry
-- ---------------------------------------------------------------------------

def Index.rel (v : Index K D R) (a b : K) : Option R := (v a).bind fun e => e.related b

def Index.Symmetric (v : Index K D R) : Prop := ∀ a b, v.rel a b = v.rel b a

def Index.prune (keep : R → Bool) (v : Index K D R) : Index K D R := fun a =>
  (v a).map fun e => { e with related := fun b => (e.related b).filter keep }

/-- A symmetric index in which some ordered pairs were bumped already: a pair
whose mirror image was not is one step ahead of it. -/
structure Halfway (next : Option R → R) (v : Index K D R) (done : K → K → Prop) : Prop where
  same : ∀ a b, (done a b ↔ done b a) → v.rel a b = v.rel b a
  ahead : ∀ a b, done a b → ¬ done b a → v.rel a b = some (next (v.rel b a))

omit [DecidableEq K] in
theorem Index.Symmetric.halfway {next : Option R → R} {v : Index K D R} (h : v.Symmetric)
    {done : K → K → Prop} (hd : ∀ a b, ¬ done a b) : Halfway next v done :=
  ⟨fun a b _ => h a b, fun a b hab => absurd hab (hd a b)⟩

omit [DecidableEq K] in
theorem Halfway.symmetric {next : Option R → R} {v : Index K D R} {done : K → K → Prop}
    (h : Halfway next v done) (hd : ∀ a b, done a b → done b a) : v.Symmetric :=
  fun a b => h.same a b ⟨hd a b, hd b a⟩

theorem Index.rel_bump (next : Option R → R) {v : Index K D R} {x : K} (hx : v x ≠ none) (y a b : K) :
    (v.bump next x y).rel a b = if a = x ∧ b = y then some (next (v.rel x y)) else v.rel a b := by
  obtain ⟨e, he⟩ := Option.ne_none_iff_exists'.mp hx
  by_cases ha : a = x
  · subst ha
    by_cases hb : b = y
    · subst hb
      simp [Index.rel, Index.bump, he]
    · simp [Index.rel, Index.bump, he, hb]
  · simp [Index.rel, Index.bump, ha]

theorem Halfway.bump {next : Option R → R} {v : Index K D R} {done : K → K → Prop}
    (h : Halfway next v done) {x y : K} (hx : v x ≠ none) (hxy : x ≠ y) (hd : ¬ done x y) :
    Halfway next (v.bump next x y) fun a b => done a b ∨ (a = x ∧ b = y) := by
  have hrel := Index.rel_bump next hx y
  have hyx : (v.bump next x y).rel y x = v.rel y x := by
    rw [hrel, if_neg fun hc => hxy hc.1.symm]
  have hself : (v.bump next x y).rel x y = some (next (v.rel x y)) := by rw [hrel, if_pos ⟨rfl, rfl⟩]
  -- what is left once neither order of the pair is the one bumped
  have hother : ∀ a b, ¬ (a = x ∧ b = y) → ¬ (b = x ∧ a = y) →
      (v.bump next x y).rel a b = v.rel a b ∧ (v.bump next x y).rel b a = v.rel b a :=
    fun a b hab hba => ⟨by rw [hrel, if_neg hab], by rw [hrel, if_neg hba]⟩
  constructor
  · intro a b hiff
    by_cases hab : a = x ∧ b = y
    · obtain ⟨rfl, rfl⟩ := hab
      have hba : done b a := by
        rcases hiff.mp (.inr ⟨rfl, rfl⟩) with hba | hba
        · exact hba
        · exact absurd hba.1.symm hxy
      rw [hself, hyx, h.ahead b a hba hd]
    · by_cases hba : b = x ∧ a = y
      · obtain ⟨rfl, rfl⟩ := hba
        have hdone : done a b := by
          rcases hiff.mpr (.inr ⟨rfl, rfl⟩) with hdone | hdone
          · exact hdone
          · exact absurd hdone.1.symm hxy
        rw [hself, hyx, h.ahead a b hdone hd]
      · obtain ⟨h1, h2⟩ := hother a b hab hba
        rw [h1, h2]
        simp only [hab, hba, or_false] at hiff
        exact h.same a b hiff
  · intro a b hdone hnot
    by_cases hab : a = x ∧ b = y
    · obtain ⟨rfl, rfl⟩ := hab
      rw [hself, hyx, h.same a b ⟨fun hc => absurd hc hd, fun hc => absurd (.inl hc) hnot⟩]
    · by_cases hba : b = x ∧ a = y
      · exact absurd (.inr hba) hnot
      · obtain ⟨h1, h2⟩ := hother a b hab hba
        rw [h1, h2]
        simp only [hab, hba, or_false] at hdone hnot
        exact h.ahead a b hdone hnot

omit [DecidableEq K] in
theorem Index.rel_prune (keep : R → Bool) (v : Index K D R) (a b : K) :
    (v.prune keep).rel a b = (v.rel a b).filter keep := by
  cases h : v a <;> simp [Index.rel, Index.prune, h]

omit [DecidableEq K] in
theorem Index.Symmetric.prune {v : Index K D R} (h : v.Symmetric) (keep : R → Bool) :
    (v.prune keep).Symmetric := fun a b => by
  rw [Index.rel_prune, Index.rel_prune, h a b]

omit [DecidableEq K] in
/-- Pruning half-way, when no record is dropped without its mirror image and
no record is dropped both before and after a bump. -/
theorem Halfway.prune {next : Option R → R} {v : Index K D R} {done : K → K → Prop}
    (h : Halfway next v done) {keep : R → Bool}
    (hmirror : ∀ a b r, v.rel a b = some r → keep r = false →
      ∃ r', v.rel b a = some r' ∧ keep r' = false)
    (hnone : keep (next none) = true) (hnext : ∀ r, keep r = false → keep (next (some r)) = true) :
    Halfway next (v.prune keep) done := by
  constructor
  · intro a b hiff
    rw [Index.rel_prune, Index.rel_prune, h.same a b hiff]
  · intro a b hab hba
    have hahead := h.ahead a b hab hba
    rw [Index.rel_prune, Index.rel_prune, hahead]
    cases hr : v.rel b a with
    | none => simp [hnone]
    | some r =>
      rw [hr] at hahead
      have hkeep : keep r = true := by
        cases hk : keep r with
        | true => rfl
        | false =>
          obtain ⟨r', hr', hk'⟩ := hmirror b a r hr hk
          obtain rfl : next (some r) = r' := Option.some.inj (hahead.symm.trans hr')
          exact absurd (hnext r hk) (by simp [hk'])
      have hkeep' : keep (next (some r)) = true := by
        cases hk : keep (next (some r)) with
        | true => rfl
        | false =>
          obtain ⟨r', hr', hk'⟩ := hmirror a b _ hahead hk
          obtain rfl : r = r' := Option.some.inj (hr.symm.trans hr')
          exact absurd hkeep (by simp [hk'])
      rw [Option.filter_some, if_pos hkeep', Option.filter_some, if_pos hkeep]

end TextMining.Cooc
