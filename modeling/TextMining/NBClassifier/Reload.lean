import TextMining.NBClassifier.Trained

/-!
# Reading a model back

Each loop of `LoadNBModel` runs once more than there are records. The run after
the last record leaves the classes and the hashes as they are, but adds a
record to `mNBTerms`.
-/

namespace TextMining.NBClassifier

open ClassMap (links IsTree)

-- ---------------------------------------------------------------------------
-- Classes
-- ---------------------------------------------------------------------------

def ClassNode.withCounters (n other : ClassNode) : ClassNode :=
  { n with
    termNum := other.termNum
    trainDataNum := other.trainDataNum
    sonMaxTrainDataNum := other.sonMaxTrainDataNum }

def ClassMap.withCounters (m other : ClassMap) : ClassMap :=
  other.entries.foldl (fun m e => m.modify e.1 fun n => n.withCounters e.2) m

section
variable {m other : ClassMap}

theorem loadClassNode_record {e : Int32 × ClassNode} (hm : e.1 ∈ m) (rest : List UInt8) :
    loadClassNode ⟨ClassNode.record e ++ rest, false⟩ m =
      some (⟨rest, false⟩, m.modify e.1 fun n => n.withCounters e.2) := by
  simp only [loadClassNode, ClassNode.record, List.append_assoc,
    InFile.read_append (readI32_write _ _), not_not.mpr hm, if_false]
  rfl

/-- No class is read after the last: `class_id` is 0, and the root keeps its counters. -/
theorem loadClassNode_end (hm : 0 ∈ m) : loadClassNode ⟨[], false⟩ m = some (⟨[], true⟩, m) := by
  have hnil : readI32 [] = none := rfl
  obtain ⟨n, hn⟩ := OrdMap.mem_iff.mp hm
  simp only [loadClassNode, InFile.read_nil hnil, not_not.mpr hm, if_false,
    ClassMap.node_of_lookup hn, Option.some.injEq, Prod.mk.injEq, true_and]
  refine OrdMap.ext fun k => ?_
  rw [OrdMap.lookup_modify]
  by_cases hk : k = 0
  · rw [if_pos hk, hk, hn]
    rfl
  · rw [if_neg hk]

theorem load_classes (hkeys : ∀ c, c ∈ m ↔ c ∈ other) (hroot : 0 ∈ m) :
    let file := other.entries.flatMap ClassNode.record
    feofLoop loadClassNode (loopFuel file) ⟨file, false⟩ m = some (m.withCounters other) := by
  refine feofLoop_records ClassNode.record
    (fun m e => m.modify e.1 fun n => n.withCounters e.2) id (fun m' => ∀ c, c ∈ m' ↔ c ∈ other)
    ?_ ?_ ?_ hkeys
  · intro e he m' hm'
    refine ⟨fun c => OrdMap.mem_modify.trans (hm' c), loadClassNode_record ?_⟩
    exact (hm' e.1).mpr (List.mem_map_of_mem he)
  · exact fun m' hm' => loadClassNode_end ((hm' 0).mpr ((hkeys 0).mp hroot))
  · have hle := length_le_flatMap ClassNode.record fun e (_ : e ∈ other.entries) =>
      List.cons_ne_nil _ _
    exact Nat.succ_lt_succ (Nat.lt_succ_of_le hle)

theorem lookup_withCounters (c : Int32) :
    (m.withCounters other).lookup c =
      (other.lookup c).elim (m.lookup c) fun n => (m.lookup c).map fun k => k.withCounters n :=
  OrdMap.lookup_modifyAll (fun n k : ClassNode => k.withCounters n) other m c

theorem links_withCounters : links (m.withCounters other) = links m := by
  funext c
  rw [links, lookup_withCounters, links]
  cases other.lookup c with
  | none => rfl
  | some n =>
    cases m.lookup c with
    | none => rfl
    | some k => rfl

theorem node_withCounters {c : Int32} (hm : c ∈ m) (hc : c ∈ other) :
    (ClassMap.node (m.withCounters other) c).termNum = (ClassMap.node other c).termNum ∧
      (ClassMap.node (m.withCounters other) c).trainDataNum =
        (ClassMap.node other c).trainDataNum ∧
      (ClassMap.node (m.withCounters other) c).sonMaxTrainDataNum =
        (ClassMap.node other c).sonMaxTrainDataNum := by
  obtain ⟨k, hk⟩ := OrdMap.mem_iff.mp hm
  obtain ⟨n, hn⟩ := OrdMap.mem_iff.mp hc
  rw [ClassMap.node, lookup_withCounters, hn, hk, ClassMap.node_of_lookup hn]
  exact ⟨rfl, rfl, rfl⟩

end

-- ---------------------------------------------------------------------------
-- Terms
-- ---------------------------------------------------------------------------

theorem loadPairs_record (unset : Nat → Int32 × Int32) (es : List (Int32 × Int32)) (i : Nat)
    (rest : List UInt8) (m : OrdMap Int32 Int32) :
    loadPairs unset es.length i
      ⟨es.flatMap (fun e => writeI32 e.1 ++ writeI32 e.2) ++ rest, false⟩ m =
        (m.insertAll es, ⟨rest, false⟩) := by
  induction es generalizing i m with
  | nil => rfl
  | cons e es ih =>
    simp only [List.length_cons, List.flatMap_cons, List.append_assoc, loadPairs,
      InFile.read_append (readI32_write _ _), ih]
    rfl

theorem loadPairs_end (unset : Nat → Int32 × Int32) (n i : Nat) (m : OrdMap Int32 Int32) :
    (loadPairs unset n i ⟨[], true⟩ m).2 = ⟨[], true⟩ := by
  have hnil : readI32 [] = none := rfl
  induction n generalizing i m with
  | zero => rfl
  | succ n ih =>
    simp only [loadPairs, InFile.read_nil hnil]
    exact ih (i + 1) _

theorem load_pairs {m : OrdMap Int32 Int32} (hsize : m.size < 2 ^ 31)
    (unset : Nat → Int32 × Int32) (rest : List UInt8) :
    loadPairs unset (Int32.ofNat m.size).toInt.toNat 0
      ⟨m.entries.flatMap (fun e => writeI32 e.1 ++ writeI32 e.2) ++ rest, false⟩ .empty =
        (m, ⟨rest, false⟩) := by
  have hlen : (Int32.ofNat m.size).toInt.toNat = m.entries.length := by
    rw [Int32.toInt_ofNat_of_lt hsize]
    rfl
  rw [hlen, loadPairs_record, OrdMap.insertAll_entries]

theorem loadTermInfo_record {t : TermInfo} (hlen : t.termstr.length < 80)
    (hz : ∀ b ∈ t.termstr, b ≠ 0) (hdf : t.classDf.size < 2 ^ 31)
    (hitem : t.classItemDf.size < 2 ^ 31) (unset : TermUnset) (junk rest : List UInt8) :
    loadTermInfo unset ⟨t.record junk ++ rest, false⟩ = (t, ⟨rest, false⟩) := by
  have hstr : snprintf 80 t.termstr = t.termstr := by
    rw [snprintf, cstr_of_ne_zero hz, List.take_of_length_le (Nat.le_of_lt_succ hlen)]
  have hback : snprintf 80 (charArray 80 junk t.termstr) = t.termstr := by
    rw [snprintf, cstr_charArray hlen hz, List.take_of_length_le (Nat.le_of_lt_succ hlen)]
  have hterm : ∀ rest, readItem 80 (charArray 80 junk t.termstr ++ rest) =
      some (charArray 80 junk t.termstr, rest) := readItem_append (length_charArray _ _ _)
  simp only [loadTermInfo, TermInfo.record, hstr, pairsRecord, List.append_assoc,
    InFile.read_append (hterm _), InFile.read_append (readI32_write _ _), load_pairs hdf,
    load_pairs hitem, hback]

/-- The record that the run after the last term adds. -/
def garbage (unset : TermUnset) : TermInfo := (loadTermInfo unset ⟨[], false⟩).1

theorem loadTerm_end (unset : Nat → TermUnset) (ts : List TermInfo) :
    loadTerm unset ⟨[], false⟩ ts = some (⟨[], true⟩, ts ++ [garbage (unset ts.length)]) := by
  have hnil : readI32 [] = none := rfl
  have hitem : readItem 80 [] = none := rfl
  have hend : ∀ u n m, loadPairs u n 0 ⟨[], true⟩ m = ((loadPairs u n 0 ⟨[], true⟩ m).1, ⟨[], true⟩) :=
    fun u n m => Prod.ext rfl (loadPairs_end u n 0 m)
  simp only [loadTerm, garbage, loadTermInfo, InFile.read_nil hnil, InFile.read_nil hitem]
  rw [hend]
  simp only [InFile.read_nil hnil]
  rw [hend]

theorem load_terms {ts : List TermInfo} (hlen : ∀ t ∈ ts, t.termstr.length < 80)
    (hz : ∀ t ∈ ts, ∀ b ∈ t.termstr, b ≠ 0)
    (hsize : ∀ t ∈ ts, t.classDf.size < 2 ^ 31 ∧ t.classItemDf.size < 2 ^ 31)
    (unset : Nat → TermUnset) (junk : Nat → List UInt8) :
    let file := ts.zipIdx.flatMap fun e => e.1.record (junk e.2)
    feofLoop (loadTerm unset) (loopFuel file) ⟨file, false⟩ [] =
      some (ts ++ [garbage (unset ts.length)]) := by
  have hfold : ∀ (es : List (TermInfo × Nat)) (ts : List TermInfo),
      es.foldl (fun ts e => ts ++ [e.1]) ts = ts ++ es.map Prod.fst := by
    intro es
    induction es with
    | nil => simp
    | cons e es ih => simp [ih]
  have hstep : ∀ e ∈ ts.zipIdx, ∀ acc : List TermInfo, True → True ∧ ∀ rest,
      loadTerm unset ⟨e.1.record (junk e.2) ++ rest, false⟩ acc =
        some (⟨rest, false⟩, acc ++ [e.1]) := fun e he acc _ => ⟨trivial, fun rest => by
    have ht : e.1 ∈ ts := List.fst_mem_of_mem_zipIdx he
    rw [loadTerm, loadTermInfo_record (hlen _ ht) (hz _ ht) (hsize _ ht).1 (hsize _ ht).2]⟩
  have hle := length_le_flatMap (fun e : TermInfo × Nat => e.1.record (junk e.2))
    fun e (_ : e ∈ ts.zipIdx) he => by
      have hl := congrArg List.length he
      simp [TermInfo.record, length_charArray] at hl
  have hrun := feofLoop_records (fun e : TermInfo × Nat => e.1.record (junk e.2))
    (fun ts e => ts ++ [e.1]) _ (fun _ => True) hstep (fun acc _ => loadTerm_end unset acc)
    (Nat.succ_lt_succ (Nat.lt_succ_of_le hle)) (s := []) trivial
  rw [hfold, List.nil_append, List.zipIdx_map_fst] at hrun
  exact hrun

-- ---------------------------------------------------------------------------
-- Hashes
-- ---------------------------------------------------------------------------

theorem load_hashes {es : List (Σ _ : UInt32, UInt32)} (hd : (es.map Sigma.fst).Nodup)
    (hne : es ≠ []) (key value : UInt32) :
    let file := es.flatMap hashRecord
    ∃ vars, feofLoop loadHash (loopFuel file) ⟨file, false⟩ ⟨key, value, ∅⟩ = some vars ∧
      ∀ k v, vars.termHashMap.lookup k = some v ↔ ⟨k, v⟩ ∈ es := by
  intro file
  have hnil : readU32 [] = none := rfl
  have hfold : ∀ (es : List (Σ _ : UInt32, UInt32)) (v : HashVars),
      (es.foldl (fun v e => ⟨e.1, e.2, v.termHashMap.insert e.1 e.2⟩) v).termHashMap =
        es.foldl (fun m e => m.insert e.1 e.2) v.termHashMap := by
    intro es
    induction es with
    | nil => exact fun _ => rfl
    | cons e es ih => exact fun v => ih _
  refine ⟨_, feofLoop_records hashRecord
    (fun v e => ⟨e.1, e.2, v.termHashMap.insert e.1 e.2⟩)
    (fun v => ⟨v.key, v.value, v.termHashMap.insert v.key v.value⟩) (fun _ => True)
    ?_ ?_ ?_ trivial, ?_⟩
  · intro e _ v _
    refine ⟨trivial, fun rest => ?_⟩
    simp only [loadHash, hashRecord, List.append_assoc, InFile.read_append (readU32_write _ _)]
  · exact fun v _ => by simp only [loadHash, InFile.read_nil hnil]
  · have hle := length_le_flatMap hashRecord fun e (_ : e ∈ es) => List.cons_ne_nil _ _
    exact Nat.succ_lt_succ (Nat.lt_succ_of_le hle)
  · intro k v
    obtain ⟨es, e, he⟩ := (List.eq_nil_or_concat es).resolve_left hne
    rw [List.concat_eq_append] at he
    subst he
    have hall := HashMap.lookup_insertEach hd k v
    have hlast := (HashMap.lookup_insertEach hd e.1 e.2).mpr (by simp)
    rw [← hall]
    simp only [List.foldl_append, List.foldl_cons, List.foldl_nil] at hlast ⊢
    rw [hfold]
    by_cases hk : k = e.1
    · rw [hk, hlast, AList.lookup_insert]
    · rw [AList.lookup_insert_ne hk]

-- ---------------------------------------------------------------------------
-- Totals
-- ---------------------------------------------------------------------------

theorem not_mem_decimalInt {b : UInt8} (hb : isDigit b = false) (hminus : b ≠ 45) (n : Int) :
    b ∉ decimalInt n := by
  have hd : b ∉ decimal n.natAbs := fun hm => by simp [isDigit_decimal _ b hm] at hb
  unfold decimalInt
  split
  · rw [List.mem_cons, not_or]
    exact ⟨hminus, hd⟩
  · exact hd

theorem length_decimalInt_le {n : Int} (h : n.natAbs < 10 ^ 19) : (decimalInt n).length ≤ 20 := by
  have hd := length_decimal_le (k := 19) (by decide) h
  unfold decimalInt
  split
  · rw [List.length_cons]
    omega
  · omega

structure InfoName (name : List UInt8) : Prop where
  colon : 58 ∉ name
  newline : 10 ∉ name
  nul : 0 ∉ name
  length : name.length ≤ 20

section
variable {name : List UInt8} (h : InfoName name)
include h

theorem InfoName.line (n : Int) :
    10 ∉ name ++ 58 :: decimalInt n ∧ 0 ∉ name ++ 58 :: decimalInt n := by
  simp only [List.mem_append, List.mem_cons, not_or]
  exact ⟨⟨h.newline, by decide, not_mem_decimalInt rfl (by decide) n⟩,
    h.nul, by decide, not_mem_decimalInt rfl (by decide) n⟩

theorem InfoName.fgets {n : Int} (hn : n.natAbs < 10 ^ 19) (buf rest : List UInt8) :
    fgets 128 buf (name ++ 58 :: (decimalInt n ++ 10 :: rest)) =
      (name ++ 58 :: (decimalInt n ++ [10]), rest) := by
  obtain ⟨h10, h0⟩ := h.line n
  have hlen := length_decimalInt_le hn
  have hname := h.length
  have hline : name ++ 58 :: (decimalInt n ++ 10 :: rest) =
      (name ++ 58 :: decimalInt n) ++ 10 :: rest := by simp
  rw [hline, fgets_append h10 h0 (by simp only [List.length_append, List.length_cons]; omega)]
  simp

theorem InfoName.fgets_last {n : Int} (hn : n.natAbs < 10 ^ 19) (buf : List UInt8) :
    TextMining.fgets 128 buf (name ++ 58 :: decimalInt n) = (name ++ 58 :: decimalInt n, []) := by
  obtain ⟨h10, h0⟩ := h.line n
  have hlen := length_decimalInt_le hn
  have hname := h.length
  exact TextMining.fgets_last h10 h0 (by simp)
    (by simp only [List.length_append, List.length_cons]; omega) buf

theorem InfoName.infoField {rest : List UInt8} (hrest : 58 ∉ rest) (n : Int) :
    infoField (name ++ 58 :: (decimalInt n ++ rest)) = some (decimalInt n ++ rest) := by
  have hvalue : (58 : UInt8) ∉ decimalInt n ++ rest := by
    rw [List.mem_append, not_or]
    exact ⟨not_mem_decimalInt rfl (by decide) n, hrest⟩
  rw [NBClassifier.infoField, List.splitOn_append_cons_self_of_not_mem h.colon,
    List.splitOn_eq_singleton hvalue]

end

theorem totalInfo_eq (s : State) : s.totalInfo =
    text "TotalClassNum" ++ 58 :: (decimalInt s.totalClassNum.toInt ++ 10 ::
      (text "TotalTermNum" ++ 58 :: (decimalInt s.totalTermNum.toInt ++ 10 ::
        (text "TotalLearningItemNum" ++ 58 :: (decimalInt s.totalLearningItemNum.toInt ++ 10 ::
          (text "TotalTermHashNum" ++ 58 :: decimalInt s.totalTermHashNum.toInt)))))) := by
  have h1 : text "TotalClassNum:" = text "TotalClassNum" ++ [58] := by decide
  have h2 : text "\nTotalTermNum:" = 10 :: (text "TotalTermNum" ++ [58]) := by decide
  have h3 : text "\nTotalLearningItemNum:" = 10 :: (text "TotalLearningItemNum" ++ [58]) := by decide
  have h4 : text "\nTotalTermHashNum:" = 10 :: (text "TotalTermHashNum" ++ [58]) := by decide
  simp only [State.totalInfo, h1, h2, h3, h4, List.append_assoc, List.cons_append, List.nil_append]

theorem natAbs_toInt_lt (n : Int32) : n.toInt.natAbs < 10 ^ 19 := by
  have hlo := n.le_toInt
  have hhi := n.toInt_lt
  omega

theorem natAbs_toInt64_lt (n : Int64) : n.toInt.natAbs < 10 ^ 19 := by
  have hlo := n.le_toInt
  have hhi := n.toInt_lt
  omega

theorem infoNames : InfoName (text "TotalClassNum") ∧ InfoName (text "TotalTermNum") ∧
    InfoName (text "TotalLearningItemNum") ∧ InfoName (text "TotalTermHashNum") :=
  ⟨⟨by decide, by decide, by decide, by decide⟩, ⟨by decide, by decide, by decide, by decide⟩,
    ⟨by decide, by decide, by decide, by decide⟩, ⟨by decide, by decide, by decide, by decide⟩⟩

theorem snprintf_totalInfo (s : State) : snprintf 1024 s.totalInfo = s.totalInfo := by
  obtain ⟨h1, h2, h3, h4⟩ := infoNames
  have hz : ∀ b ∈ s.totalInfo, b ≠ 0 := by
    have hd : ∀ n, (0 : UInt8) ∉ decimalInt n := not_mem_decimalInt rfl (by decide)
    rintro b hb rfl
    rw [totalInfo_eq] at hb
    simp [h1.nul, h2.nul, h3.nul, h4.nul, hd] at hb
  have hlen : s.totalInfo.length ≤ 1023 := by
    have l1 := length_decimalInt_le (natAbs_toInt_lt s.totalClassNum)
    have l2 := length_decimalInt_le (natAbs_toInt64_lt s.totalTermNum)
    have l3 := length_decimalInt_le (natAbs_toInt_lt s.totalLearningItemNum)
    have l4 := length_decimalInt_le (natAbs_toInt_lt s.totalTermHashNum)
    have n1 := h1.length
    have n2 := h2.length
    have n3 := h3.length
    have n4 := h4.length
    rw [totalInfo_eq]
    simp only [List.length_append, List.length_cons]
    omega
  rw [snprintf, cstr_of_ne_zero hz, List.take_of_length_le hlen]

-- ---------------------------------------------------------------------------
-- Models
-- ---------------------------------------------------------------------------

/-- A model that was written and read into a fresh classifier. -/
structure Reloaded (s₀ s t : State) : Prop where
  names : t.classNameMap = s₀.classNameMap
  classes : t.classNodeMap = s₀.classNodeMap.withCounters s.classNodeMap
  hashes : ∀ hash, t.termHashMap.lookup hash = s.termHashMap.lookup hash
  terms : ∃ extra, t.mNBTerms = s.mNBTerms ++ [extra]
  classNum : t.totalClassNum = s.totalClassNum
  termNum : t.totalTermNum = s.totalTermNum
  learning : t.totalLearningItemNum = s.totalLearningItemNum
  hashNum : t.totalTermHashNum = s.totalTermHashNum

/-- Reading back what was written succeeds. The number of classes is an `int`. -/
theorem loadNBModel_dump {s₀ s : State} (hs₀ : IsTree s₀.classNodeMap) (hfresh : Untrained s₀)
    (h : Sound s₀ s) (hclasses : s₀.classNodeMap.size < 2 ^ 31) (hne : s.mNBTerms ≠ [])
    (ord : IterOrder UInt32 UInt32) (junk : Nat → List UInt8) (unset : Unset) :
    ∃ t, s₀.loadNBModel unset (s.dumpNBModel ord junk) = some t ∧ Reloaded s₀ s t := by
  obtain ⟨depth, ht⟩ := hs₀
  have hroot : (0 : Int32) ∈ s₀.classNodeMap := by
    obtain ⟨p, ss, hl⟩ := ht.top
    exact ClassMap.links_isSome.mp ⟨_, hl⟩
  have hnodes := load_classes (fun c => h.tree.mem_iff.symm) hroot
  have hsize : ∀ t ∈ s.mNBTerms, t.classDf.size < 2 ^ 31 ∧ t.classItemDf.size < 2 ^ 31 :=
    fun t ht => ⟨(OrdMap.size_le (h.records t ht).classDf).trans_lt hclasses,
      (OrdMap.size_le (h.records t ht).classItemDf).trans_lt hclasses⟩
  have hterms := load_terms (fun t ht => (h.records t ht).short) (fun t ht => (h.records t ht).string)
    hsize unset.terms junk
  have hwalk : ord.walk 0 s.termHashMap ≠ [] := by
    intro hnil
    have hp := (ord.perm 0 s.termHashMap).length_eq
    rw [hnil] at hp
    exact hne (List.length_eq_zero_iff.mp (h.indexed.size ▸ hp.symm))
  obtain ⟨vars, hvars, hlookup⟩ := load_hashes (ord.nodup_walk 0 s.termHashMap) hwalk unset.key
    unset.value
  obtain ⟨n1, n2, n3, n4⟩ := infoNames
  have h10 : (58 : UInt8) ∉ [10] := by decide
  have htail : ∀ b ∈ ([10] : List UInt8).head?, isDigit b = false := by
    rintro b ⟨⟩
    rfl
  have hlast := n4.infoField List.not_mem_nil s.totalTermHashNum.toInt
  have hnum := readInt_decimalInt s.totalTermHashNum (show ∀ b ∈ ([] : List UInt8).head?, _ from nofun)
  rw [List.append_nil] at hlast hnum
  have htotal := (snprintf_totalInfo s).trans (totalInfo_eq s)
  refine ⟨{ s₀ with
      classNodeMap := s₀.classNodeMap.withCounters s.classNodeMap
      termHashMap := vars.termHashMap
      mNBTerms := s.mNBTerms ++ [garbage (unset.terms s.mNBTerms.length)]
      totalClassNum := s.totalClassNum
      totalTermNum := s.totalTermNum
      totalLearningItemNum := s.totalLearningItemNum
      totalTermHashNum := s.totalTermHashNum }, ?_, ?_⟩
  · simp only [State.loadNBModel, State.dumpNBModel, hnodes, hfresh.terms, hterms, hfresh.hashes, hvars,
      htotal, n1.fgets (natAbs_toInt_lt _), n2.fgets (natAbs_toInt64_lt _),
      n3.fgets (natAbs_toInt_lt _), n4.fgets_last (natAbs_toInt_lt _), n1.infoField h10,
      n2.infoField h10, n3.infoField h10, hlast, Option.bind_eq_bind, Option.bind_some,
      readInt_decimalInt _ htail, readLong_decimalInt _ htail, hnum, Option.getD_some]
  · refine ⟨rfl, rfl, fun hash => ?_, ⟨_, rfl⟩, rfl, rfl, rfl, rfl⟩
    exact Option.ext fun v => (hlookup hash v).trans ord.mem_walk

end TextMining.NBClassifier
