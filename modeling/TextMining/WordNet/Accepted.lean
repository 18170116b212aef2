import TextMining.WordNet.LoadIndex

/-!
# What `LoadIndex` accepts

The loader checks every read and every number, but inserts into maps, which
ignore a key that they have. So what it accepts is well formed exactly when no
key of the files is repeated.
-/

namespace TextMining.WordNet

structure State.WellFormed (s : State) : Prop where
  termInfo : s.mTermInfo.length = s.total.termNum
  termIndex : s.mTermIndex.size = s.total.termNum
  index_lt : ∀ i ∈ s.mTermIndex.values, i < s.total.termNum
  slot_lt : ∀ t ∈ s.mTermInfo, ∀ slot ∈ t.coocTerm.values, slot < s.mRelateInfo.length
  relateNum : ∀ t ∈ s.mTermInfo, t.relateTermNum.toNat = t.coocTerm.size

-- ---------------------------------------------------------------------------
-- The keys in the files
-- ---------------------------------------------------------------------------

def indexKeys : Nat → List UInt8 → List UInt32
  | 0, _ => []
  | n + 1, ind1 =>
    match readU32 ind1 with
    | none => []
    | some (hashValue, ind1) => hashValue :: indexKeys n ind1

def coocKeys : Nat → List UInt8 → List UInt32 × List UInt8
  | 0, bytes => ([], bytes)
  | n + 1, bytes =>
    match readU32 bytes with
    | none => ([], [])
    | some (hashValue, bytes) =>
      let (keys, bytes) := coocKeys n (bytes.drop 4)
      (hashValue :: keys, bytes)

def termKeys : Nat → List UInt8 → List (List UInt32)
  | 0, _ => []
  | n + 1, bytes =>
    match readU32 (bytes.drop 72) with
    | none => []
    | some (relateTermNum, bytes) =>
      let (keys, bytes) := coocKeys relateTermNum.toNat bytes
      keys :: termKeys n bytes

/-- No key is repeated among those that the first line of `word_net.n` and the
terms announce. -/
def IndexFiles.NoKeyTwice (files : IndexFiles) (termNum : Nat) : Prop :=
  (∀ ind1 ∈ files.ind1, (indexKeys termNum ind1).Nodup) ∧
    ∀ terms ∈ files.termInfo, ∀ keys ∈ termKeys termNum terms, keys.Nodup

-- ---------------------------------------------------------------------------
-- The parts of the loader
-- ---------------------------------------------------------------------------

theorem loadTermIndex_some {termNum n : Nat} {m m' : HashMap UInt32 Nat} {ind1 ind2 : List UInt8}
    (h : loadTermIndex termNum n m ind1 ind2 = some m') :
    ∃ entries, m' = m.insertAll entries ∧ entries.length = n ∧
      entries.map Sigma.fst = indexKeys n ind1 ∧ ∀ e ∈ entries, e.2 < termNum := by
  induction n generalizing m ind1 ind2 with
  | zero =>
    obtain rfl := Option.some.inj h
    exact ⟨[], rfl, rfl, rfl, fun e he => nomatch he⟩
  | succ n ih =>
    simp only [loadTermIndex, Option.bind_eq_bind, Option.bind_eq_some_iff, Prod.exists] at h
    obtain ⟨hashValue, ind1', h1, indexNum, ind2', -, h⟩ := h
    split at h
    · cases h
    · rename_i hlt
      obtain ⟨entries, hm, hlen, hkeys, hvals⟩ := ih h
      refine ⟨⟨hashValue, indexNum.toNat⟩ :: entries, hm, congrArg (· + 1) hlen, ?_, ?_⟩
      · rw [indexKeys, h1, List.map_cons, hkeys]
      · intro e he
        rcases List.mem_cons.mp he with rfl | he
        · exact not_le.mp hlt
        · exact hvals e he

theorem loadCooc_some {sorted : UInt32} {n : Nat} {m : HashMap UInt32 Nat} {bytes : List UInt8}
    {r : HashMap UInt32 Nat × List UInt8} (h : loadCooc sorted n m bytes = some r) :
    ∃ entries, r.1 = m.insertAll entries ∧ entries.length = n ∧
      (entries.map Sigma.fst, r.2) = coocKeys n bytes ∧ ∀ e ∈ entries, e.2 < sorted.toNat := by
  induction n generalizing m bytes with
  | zero =>
    obtain rfl := Option.some.inj h
    exact ⟨[], rfl, rfl, rfl, fun e he => nomatch he⟩
  | succ n ih =>
    simp only [loadCooc, Option.bind_eq_bind, Option.bind_eq_some_iff, Prod.exists] at h
    obtain ⟨hashValue, bytes', h1, indexNum, bytes'', h2, h⟩ := h
    split at h
    · cases h
    · rename_i hlt
      obtain ⟨entries, hm, hlen, hkeys, hvals⟩ := ih h
      have hdrop := readU32_rest h2
      refine ⟨⟨hashValue, indexNum.toNat⟩ :: entries, hm, congrArg (· + 1) hlen, ?_, ?_⟩
      · rw [coocKeys, h1]
        simp only [← hdrop, ← hkeys, List.map_cons]
      · intro e he
        rcases List.mem_cons.mp he with rfl | he
        · rw [ge_iff_le, UInt32.le_iff_toNat_le, not_le] at hlt
          exact hlt
        · exact hvals e he

theorem loadTerm_some {sorted : UInt32} {bytes rest : List UInt8} {t : TermInfo}
    (h : loadTerm .merge sorted bytes = some (t, rest)) :
    ∃ entries bytes', t.coocTerm = HashMap.insertAll ∅ entries ∧
      entries.length = t.relateTermNum.toNat ∧
      readU32 (bytes.drop 72) = some (t.relateTermNum, bytes') ∧
      (entries.map Sigma.fst, rest) = coocKeys t.relateTermNum.toNat bytes' ∧
      ∀ e ∈ entries, e.2 < sorted.toNat := by
  simp only [loadTerm, Option.bind_eq_bind, Option.bind_eq_some_iff, Prod.exists,
    Option.some.injEq, Prod.mk.injEq] at h
  obtain ⟨termstr, b1, h1, dfHistory, b2, h2, dfNow, b3, h3, relateTermNum, b4, h4, coocTerm, b5,
    h5, rfl, rfl⟩ := h
  obtain ⟨entries, hm, hlen, hkeys, hvals⟩ := loadCooc_some h5
  refine ⟨entries, b4, hm, hlen, ?_, hkeys, hvals⟩
  have hb3 : b3 = bytes.drop 72 := by
    rw [readU32_rest h3, readU32_rest h2, readItem_rest h1, List.drop_drop, List.drop_drop]
  rwa [← hb3]

theorem loadTerms_some {sorted : UInt32} {n : Nat} {bytes : List UInt8} {ts : List TermInfo}
    (h : loadTerms .merge sorted n bytes = some ts) :
    (∀ t ∈ ts, ∀ slot ∈ t.coocTerm.values, slot < sorted.toNat) ∧
      ((∀ t ∈ ts, t.relateTermNum.toNat = t.coocTerm.size) ↔
        ∀ keys ∈ termKeys n bytes, keys.Nodup) := by
  induction n generalizing bytes ts with
  | zero =>
    obtain rfl := Option.some.inj h
    exact ⟨fun t ht => (nomatch ht), by simp [termKeys]⟩
  | succ n ih =>
    simp only [loadTerms, Option.bind_eq_bind, Option.bind_eq_some_iff, Prod.exists,
      Option.some.injEq] at h
    obtain ⟨t, rest, ht, ts', hts, rfl⟩ := h
    obtain ⟨entries, bytes', hm, hlen, hread, hkeys, hvals⟩ := loadTerm_some ht
    obtain ⟨hslots, hnum⟩ := ih hts
    refine ⟨?_, ?_⟩
    · intro t' ht'
      rcases List.mem_cons.mp ht' with rfl | ht'
      · intro slot hs
        rw [hm] at hs
        rcases HashMap.values_insertAll_subset hs with hs | hs
        · cases hs
        · obtain ⟨e, he, rfl⟩ := List.mem_map.mp hs
          exact hvals e he
      · exact hslots t' ht'
    · have hthis : t.relateTermNum.toNat = t.coocTerm.size ↔ (entries.map Sigma.fst).Nodup := by
        rw [← HashMap.size_insertAll_eq_iff, hm, hlen, eq_comm]
      have hk : termKeys (n + 1) bytes = entries.map Sigma.fst :: termKeys n rest := by
        simp only [termKeys, hread, ← hkeys]
      rw [hk, List.forall_mem_cons, List.forall_mem_cons, hthis, hnum]

theorem length_loadRelates {merge : RelateTermInfo → RelateTermInfo} {n : Nat}
    {bytes : List UInt8} {rs : List RelateTermInfo} (h : loadRelates merge n bytes = some rs) :
    rs.length = n := by
  induction n generalizing bytes rs with
  | zero =>
    obtain rfl := Option.some.inj h
    rfl
  | succ n ih =>
    simp only [loadRelates, Option.bind_eq_bind, Option.bind_eq_some_iff, Prod.exists,
      Option.some.injEq] at h
    obtain ⟨r, rest, -, rs', hrs, rfl⟩ := h
    exact congrArg (· + 1) (ih hrs)

-- ---------------------------------------------------------------------------
-- The whole index
-- ---------------------------------------------------------------------------

/-- What is accepted is well formed if and only if no key is repeated. -/
theorem loadIndex_wellFormed_iff {unset : Nat → Nat} {relateInfo : List UInt8} {files : IndexFiles}
    {s : State} (h : loadIndex unset relateInfo files = some s) :
    s.WellFormed ↔ files.NoKeyTwice s.total.termNum := by
  simp only [loadIndex, Option.bind_eq_bind, Option.bind_eq_some_iff, Option.some.injEq] at h
  obtain ⟨ind1, h1, ind2, -, n, -, terms, hterms, relates, -, total, -, m, hm, ts, hts, rs, hrs,
    rfl⟩ := h
  obtain ⟨entries, rfl, hlen, hkeys, hvals⟩ := loadTermIndex_some hm
  have htlen := length_loadTerms hts
  obtain ⟨hslots, hnum⟩ := loadTerms_some hts
  have hrlen := length_loadRelates hrs
  have hsize : (HashMap.insertAll ∅ entries).size = total.termNum ↔
      (indexKeys total.termNum ind1).Nodup := by
    rw [← hkeys, ← HashMap.size_insertAll_eq_iff, hlen]
  constructor
  · intro hw
    refine ⟨fun i hi => ?_, fun t ht => ?_⟩
    · obtain rfl := Option.some.inj (h1.symm.trans hi)
      exact hsize.mp hw.termIndex
    · obtain rfl := Option.some.inj (hterms.symm.trans ht)
      exact hnum.mp hw.relateNum
  · rintro ⟨hind, hcooc⟩
    refine ⟨htlen, hsize.mpr (hind ind1 h1), fun i hi => ?_, fun t ht slot hs => ?_,
      hnum.mpr (hcooc terms hterms)⟩
    · rcases HashMap.values_insertAll_subset hi with hi | hi
      · cases hi
      · obtain ⟨e, he, rfl⟩ := List.mem_map.mp hi
        exact hvals e he
    · exact hrlen ▸ hslots t ht slot hs

/-- An index of two terms without relations, given their hash values. -/
def twoTerms (hash hash' : UInt32) : IndexFiles where
  ind1 := some (writeU32 hash ++ writeU32 hash')
  ind2 := some (writeU32 0 ++ writeU32 1)
  n := some (snprintf 128 (TotalIndexInfo.text ⟨2, 0, 0, 1⟩))
  termInfo := some (termArray [] [97] ++ writeU32 0 ++ writeU32 1 ++ writeU32 0 ++
    termArray [] [98] ++ writeU32 0 ++ writeU32 1 ++ writeU32 0)
  relateInfo := some []

theorem loadIndex_wellFormed_two : ∃ s,
    loadIndex (fun _ => 0) (text "data/index/relate_info.index") (twoTerms 97 98) = some s ∧
      s.WellFormed := by
  have hload : (loadIndex (fun _ => 0) (text "data/index/relate_info.index") (twoTerms 97 98)).map
      (fun s => s.total.termNum) = some 2 := by decide +kernel
  obtain ⟨s, hs, hnum⟩ := Option.map_eq_some_iff.mp hload
  refine ⟨s, hs, (loadIndex_wellFormed_iff hs).mpr ?_⟩
  rw [hnum]
  refine ⟨fun ind1 h => ?_, fun terms h => ?_⟩
  · obtain rfl := Option.some.inj h
    decide +kernel
  · obtain rfl := Option.some.inj h
    decide +kernel

/-- With one hash value for both terms the load succeeds with a single key. -/
theorem repeated_key_accepted : ∃ s,
    loadIndex (fun _ => 0) (text "data/index/relate_info.index") (twoTerms 97 97) = some s ∧
      s.total.termNum = 2 ∧ s.mTermIndex.size = 1 ∧ ¬ s.WellFormed := by
  have hload : (loadIndex (fun _ => 0) (text "data/index/relate_info.index") (twoTerms 97 97)).map
      (fun s => (s.total.termNum, s.mTermIndex.size)) = some (2, 1) := by decide +kernel
  obtain ⟨s, hs, hboth⟩ := Option.map_eq_some_iff.mp hload
  obtain ⟨hnum, hsize⟩ := Prod.mk.injEq .. ▸ hboth
  refine ⟨s, hs, hnum, hsize, fun hw => ?_⟩
  have := hw.termIndex
  omega

end TextMining.WordNet
