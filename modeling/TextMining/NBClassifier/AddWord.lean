import TextMining.NBClassifier.ClassTree
import TextMining.NBClassifier.Train

/-!
# What `AddWord` does to the records

The hash of a term leads to its record, and different hashes to different
records. Adding a term changes its own record and no other. There are no more
records than hashes, so an index never wraps.
-/

namespace TextMining.NBClassifier

open ClassMap (links)

def State.info (env : Env) (s : State) (term : List UInt8) : Option TermInfo :=
  (s.termHashMap.lookup (env.hashlittle term)).bind fun i => s.mNBTerms[i.toNat]?

/-- The hash map numbers the records. -/
structure Indexed (s : State) : Prop where
  hashNum : s.totalTermHashNum = Int32.ofNat s.mNBTerms.length
  size : s.termHashMap.size = s.mNBTerms.length
  range : ∀ h i, s.termHashMap.lookup h = some i → i.toNat < s.mNBTerms.length
  inj : ∀ h h' i, s.termHashMap.lookup h = some i → s.termHashMap.lookup h' = some i → h = h'

theorem Untrained.indexed {s : State} (h : Untrained s) : Indexed s where
  hashNum := by rw [h.hashNum, h.terms]; rfl
  size := by rw [h.hashes, h.terms]; rfl
  range _ _ hl := by simp [h.hashes] at hl
  inj _ _ _ hl := by simp [h.hashes] at hl

structure SameRest (s t : State) : Prop where
  names : t.classNameMap = s.classNameMap
  classes : SameClasses s.classNodeMap t.classNodeMap
  learning : t.totalLearningItemNum = s.totalLearningItemNum

theorem SameRest.refl (s : State) : SameRest s s := ⟨rfl, .refl _, rfl⟩

theorem SameRest.trans {s t u : State} (h : SameRest s t) (h' : SameRest t u) : SameRest s u :=
  ⟨h'.names.trans h.names, h.classes.trans h'.classes, h'.learning.trans h.learning⟩

theorem sameClasses_bumpTermNum (m : ClassMap) (classTree : List Int32) :
    SameClasses m (State.bumpTermNum m classTree) := by
  induction classTree generalizing m with
  | nil => exact .refl m
  | cons c classTree ih =>
    refine SameClasses.trans ⟨ClassMap.links_modify ?_, OrdMap.size_modify m c _,
      trainDataNum_modify ?_⟩ (ih _)
    · exact fun _ => ⟨rfl, rfl⟩
    · exact fun _ => rfl

section
variable {env : Env} {s : State} {classTree : List Int32} {e : List UInt8 × Int32}

def added (classTree : List Int32) (term : List UInt8) (weight : Int32) :
    Option TermInfo → TermInfo
  | none => State.newTerm classTree term weight
  | some info => State.againTerm classTree weight info

theorem addTerm_of_none (hl : s.termHashMap.lookup (env.hashlittle e.1) = none) :
    State.addTerm env classTree s e =
      { s with
        totalTermNum := s.totalTermNum + e.2.toInt64
        termHashMap := s.termHashMap.insert (env.hashlittle e.1) s.totalTermHashNum.toUInt32
        totalTermHashNum := s.totalTermHashNum + 1
        mNBTerms := s.mNBTerms ++ [State.newTerm classTree e.1 e.2]
        classNodeMap := State.bumpTermNum s.classNodeMap classTree } := by
  simp only [State.addTerm, hl]

theorem addTerm_of_some {i : UInt32} (hl : s.termHashMap.lookup (env.hashlittle e.1) = some i) :
    State.addTerm env classTree s e =
      { s with
        totalTermNum := s.totalTermNum + e.2.toInt64
        mNBTerms := s.mNBTerms.modify i.toNat (State.againTerm classTree e.2)
        classNodeMap := State.bumpTermNum s.classNodeMap classTree } := by
  simp only [State.addTerm, hl]

theorem sameRest_addTerm (env : Env) (s : State) (classTree : List Int32)
    (e : List UInt8 × Int32) : SameRest s (State.addTerm env classTree s e) := by
  cases hl : s.termHashMap.lookup (env.hashlittle e.1) with
  | none =>
    rw [addTerm_of_none hl]
    exact ⟨rfl, sameClasses_bumpTermNum _ _, rfl⟩
  | some i =>
    rw [addTerm_of_some hl]
    exact ⟨rfl, sameClasses_bumpTermNum _ _, rfl⟩

theorem mem_addTerm (hash : UInt32) :
    hash ∈ (State.addTerm env classTree s e).termHashMap ↔
      hash = env.hashlittle e.1 ∨ hash ∈ s.termHashMap := by
  cases hl : s.termHashMap.lookup (env.hashlittle e.1) with
  | none =>
    rw [addTerm_of_none hl]
    exact AList.mem_insert _
  | some i =>
    rw [addTerm_of_some hl]
    exact ⟨.inr, fun h => h.elim (fun he => he ▸ HashMap.mem_of_lookup hl) id⟩

theorem Indexed.newIndex (h : Indexed s) {hash : UInt32} (hnew : hash ∉ s.termHashMap) :
    s.totalTermHashNum.toUInt32.toNat = s.mNBTerms.length := by
  rw [h.hashNum, Int32.toUInt32_ofNat', UInt32.toNat_ofNat_of_lt' (h.size ▸ HashMap.size_lt_of_missing hnew)]

theorem Indexed.addTerm (h : Indexed s) : Indexed (State.addTerm env classTree s e) := by
  cases hl : s.termHashMap.lookup (env.hashlittle e.1) with
  | none =>
    have hnew : env.hashlittle e.1 ∉ s.termHashMap := AList.lookup_eq_none.mp hl
    have hidx := h.newIndex hnew
    rw [addTerm_of_none hl]
    refine ⟨?_, ?_, ?_, ?_⟩
    · rw [h.hashNum, List.length_append, Int32.ofNat_add]
      rfl
    · rw [HashMap.size_insert _ hnew, h.size, List.length_append, List.length_singleton]
    · intro hash i hi
      rw [List.length_append, List.length_singleton]
      by_cases he : hash = env.hashlittle e.1
      · rw [he, AList.lookup_insert, Option.some.injEq] at hi
        rw [← hi, hidx]
        exact Nat.lt_succ_self _
      · rw [AList.lookup_insert_ne he] at hi
        exact Nat.lt_succ_of_lt (h.range hash i hi)
    · intro hash hash' i hi hi'
      have hfresh : ∀ k, s.termHashMap.lookup k ≠ some s.totalTermHashNum.toUInt32 := fun k hk => by
        have hr := h.range _ _ hk
        rw [hidx] at hr
        exact Nat.lt_irrefl _ hr
      by_cases he : hash = env.hashlittle e.1
      · by_cases he' : hash' = env.hashlittle e.1
        · rw [he, he']
        · rw [he, AList.lookup_insert, Option.some.injEq] at hi
          rw [AList.lookup_insert_ne he'] at hi'
          exact absurd (hi ▸ hi') (hfresh hash')
      · by_cases he' : hash' = env.hashlittle e.1
        · rw [he', AList.lookup_insert, Option.some.injEq] at hi'
          rw [AList.lookup_insert_ne he] at hi
          exact absurd (hi' ▸ hi) (hfresh hash)
        · rw [AList.lookup_insert_ne he] at hi
          rw [AList.lookup_insert_ne he'] at hi'
          exact h.inj hash hash' i hi hi'
  | some i =>
    rw [addTerm_of_some hl]
    exact ⟨by rw [List.length_modify]; exact h.hashNum, by rw [List.length_modify]; exact h.size,
      fun k j hj => by rw [List.length_modify]; exact h.range k j hj, h.inj⟩

theorem Indexed.info_addTerm_self (h : Indexed s) :
    (State.addTerm env classTree s e).info env e.1 =
      some (added classTree e.1 e.2 (s.info env e.1)) := by
  cases hl : s.termHashMap.lookup (env.hashlittle e.1) with
  | none =>
    rw [addTerm_of_none hl, State.info, AList.lookup_insert, State.info, hl, Option.bind_some,
      h.newIndex (AList.lookup_eq_none.mp hl), List.getElem?_concat_length]
    rfl
  | some i =>
    have hlt := h.range _ _ hl
    rw [addTerm_of_some hl, State.info, State.info, hl, Option.bind_some, Option.bind_some,
      List.getElem?_modify_eq, List.getElem?_eq_getElem hlt]
    rfl

theorem Indexed.info_addTerm_ne (h : Indexed s) {term : List UInt8}
    (hne : env.hashlittle term ≠ env.hashlittle e.1) :
    (State.addTerm env classTree s e).info env term = s.info env term := by
  cases hl : s.termHashMap.lookup (env.hashlittle e.1) with
  | none =>
    rw [addTerm_of_none hl, State.info, AList.lookup_insert_ne hne, State.info]
    cases ht : s.termHashMap.lookup (env.hashlittle term) with
    | none => rfl
    | some i => exact List.getElem?_append_left (h.range _ _ ht)
  | some i =>
    rw [addTerm_of_some hl, State.info, State.info]
    cases ht : s.termHashMap.lookup (env.hashlittle term) with
    | none => rfl
    | some j =>
      have hij : i.toNat ≠ j.toNat := fun he =>
        hne (h.inj _ _ j ht (UInt32.toNat_inj.mp he ▸ hl))
      exact List.getElem?_modify_ne _ _ hij

-- ---------------------------------------------------------------------------
-- All terms of an item
-- ---------------------------------------------------------------------------

theorem Indexed.addTerms (h : Indexed s) (es : List (List UInt8 × Int32)) :
    Indexed (es.foldl (State.addTerm env classTree) s) := by
  induction es generalizing s with
  | nil => exact h
  | cons e es ih => exact ih h.addTerm

theorem sameRest_addTerms (es : List (List UInt8 × Int32)) :
    SameRest s (es.foldl (State.addTerm env classTree) s) := by
  induction es generalizing s with
  | nil => exact .refl s
  | cons e es ih => exact (sameRest_addTerm env s classTree e).trans ih

theorem mem_addTerms {es : List (List UInt8 × Int32)} {hash : UInt32} :
    hash ∈ (es.foldl (State.addTerm env classTree) s).termHashMap ↔
      hash ∈ es.map (fun e => env.hashlittle e.1) ∨ hash ∈ s.termHashMap := by
  induction es generalizing s with
  | nil => simp
  | cons e es ih =>
    rw [List.foldl_cons, ih, mem_addTerm, List.map_cons, List.mem_cons]
    exact or_left_comm.trans or_assoc.symm

theorem Indexed.info_addTerms (h : Indexed s) {S : Set (List UInt8)}
    (hinj : Set.InjOn env.hashlittle S) {es : List (List UInt8 × Int32)}
    (hes : ∀ e ∈ es, e.1 ∈ S) (hnd : (es.map Prod.fst).Nodup)
    {term : List UInt8} (hterm : term ∈ S) :
    (es.foldl (State.addTerm env classTree) s).info env term =
      match es.find? fun e => e.1 = term with
      | none => s.info env term
      | some e => some (added classTree term e.2 (s.info env term)) := by
  induction es generalizing s with
  | nil => rfl
  | cons e es ih =>
    obtain ⟨he, hnd⟩ := List.nodup_cons.mp hnd
    rw [List.foldl_cons, ih h.addTerm (fun e he => hes e (by simp [he])) hnd]
    by_cases ht : e.1 = term
    · subst ht
      have hnone : es.find? (fun e' => e'.1 = e.1) = none := by
        refine List.find?_eq_none.mpr fun e' he' => ?_
        simpa using fun hc : e'.1 = e.1 => he (hc ▸ List.mem_map_of_mem he')
      rw [hnone, List.find?_cons_of_pos (by simp)]
      exact h.info_addTerm_self
    · have hne : env.hashlittle term ≠ env.hashlittle e.1 := fun hc =>
        ht (hinj hterm (hes e (by simp)) hc).symm
      rw [List.find?_cons_of_neg (by simpa using ht), h.info_addTerm_ne hne]

end

end TextMining.NBClassifier
