import TextMining.WordNet.CommonWorker
import TextMining.WordNet.FirstPair

/-!
# What the indexer stores and the server finds

The indexer hashes the first 99 bytes of a term, the server hashes its query.
`found_iff` says for which terms of the lines `GetCoocTerm` has their entry,
their count and the records of their pairs.
-/

namespace TextMining.WordNet

open State Cooc

def Line.rawTerms (line : Line) : List (List UInt8) := line.termString.tail.map cstr

theorem Line.terms_eq (line : Line) : line.terms = line.rawTerms.map (List.take 99) := by
  rw [Line.terms, Line.rawTerms, List.map_map]
  rfl

theorem Line.length_le {line : Line} {t : List UInt8} (h : t ∈ line.terms) : t.length ≤ 99 := by
  obtain ⟨col, -, rfl⟩ := List.mem_map.mp h
  exact length_snprintf_le 100 col

theorem Line.mem_terms_of_le {line : Line} {t : List UInt8} (h : t ∈ line.rawTerms)
    (hlen : t.length ≤ 99) : t ∈ line.terms := by
  rw [Line.terms_eq]
  exact List.mem_map.mpr ⟨t, h, List.take_of_length_le hlen⟩

theorem named_indexRuns (hashlittle : List UInt8 → UInt32) (runs : List LineRun) :
    ∀ t ∈ (indexRuns hashlittle State.empty runs).mTermInfo, t.Named := by
  obtain ⟨hinv, hdata⟩ := inv_empty.indexRuns_data hashlittle rfl runs
  refine fun t ht => hinv.named (fun hash e he => ?_) ht
  have hd := congrFun hdata hash
  rw [Index.dataOf, he, Option.map_some, eq_comm, Index.dataOf, Option.map_eq_some_iff] at hd
  obtain ⟨e', he', hd⟩ := hd
  rw [← hd]
  refine named_foldl hashlittle _ (fun hash e he => ?_) hash e' he'
  rw [view_empty] at he
  cases he

namespace Server

/-- What `GetCoocTerm` has to list for a related term of the term at `i`: its name,
and the weight that the indexer's record of the pair gives. -/
def Related (s : State) (weiboNum : UInt64) (i : Nat) (key : UInt32) (x : List UInt8 × UInt32) :
    Prop :=
  ∃ t slot r, s.mTermInfo[s.termIndex key]? = some t ∧ s.findCooc i key = some slot ∧
    s.mRelateInfo[slot]? = some r ∧ x = (t.termstr, weight weiboNum t r)

def reply (env : Env) (ptext : JsonText) (info : TermInfo) (found : List (List UInt8 × UInt32)) :
    JsonText :=
  let ptext := env.addPairValue { ptext with curLen := 0 } (text "term") info.termstr
  let ptext := env.addPairValue ptext (text "df") (decimalInt info.dfNow.toInt32.toInt)
  env.addPairValue ptext (text "cooc") (coocText (env.sort found) [])

/-- `GetCoocTerm` answers the content `t` with the entry `info` at `index`, which
counts the lines with `t` and has the related terms of the indexer `s`, and with
the list `found` of them, for which it reads the records of the indexer. -/
structure Answers (env : Env) (lines : List Line) (s : State) (g : GlobalData) (t : List UInt8)
    (index : Nat) (info : TermInfo) (found : List (List UInt8 × UInt32)) : Prop where
  lookup : g.termIndex.lookup (env.hashlittle t) = some index
  entry : g.termInfo[index]? = some info
  df : info.dfNow.toNat = occurrences (lines.map Line.rawTerms) t
  key : ∀ key, key ∈ info.coocTerm ↔ s.findCooc (s.termIndex (env.hashlittle t)) key ≠ none
  record : ∀ e ∈ info.coocTerm.entries, ∃ slot r,
    s.findCooc (s.termIndex (env.hashlittle t)) e.1 = some slot ∧ s.mRelateInfo[slot]? = some r ∧
      relateInfoOf g.fileMmap e = some r
  related : List.Forall₂ (fun e x => Related s g.totalIndexInfo.weiboNum
    (s.termIndex (env.hashlittle t)) e.1 x) (env.ord.walk index info.coocTerm) found
  answer : ∀ work, (getCoocTerm env t ⟨work, g⟩).map Prod.fst =
    some (Server.answer (reply env work.ptext info found))

def Found (env : Env) (lines : List Line) (s : State) (g : GlobalData) (t : List UInt8) : Prop :=
  ∃ index info found, Answers env lines s g t index info found

section
variable {env : Env} {lines : List Line} {s : State} {g : GlobalData} {ord : Order}

theorem relateBytes_eq_nil (ord : Order) : relateBytes s ord = [] ↔ s.usedSlots = [] := by
  have hp := (walked_perm ord 0 s.mTermInfo).length_eq
  rw [List.length_map] at hp
  rw [← List.length_eq_zero_iff, length_relateBytes, hp, ← List.length_eq_zero_iff (l := usedSlots s),
    State.usedSlots]
  omega

theorem Copy.coocTerms (hc : Copy ord s g) (h : Inv s)
    (hsmall : (relateBytes s ord).length < 2 ^ 31) (hread : ∀ o, env.readahead o = true) {i : Nat}
    {info : TermInfo} (hinfo : g.termInfo[i]? = some info) {order : List (Σ _ : UInt32, Nat)}
    (horder : ∀ e ∈ order, info.coocTerm.lookup e.1 = some e.2)
    (found : List (List UInt8 × UInt32)) :
    ∃ rest, List.Forall₂ (fun e x => Related s g.totalIndexInfo.weiboNum i e.1 x) order rest ∧
      coocTerms env g order g.termIndex found = some (g.termIndex, some (found ++ rest)) := by
  induction order generalizing found with
  | nil => exact ⟨[], .nil, by rw [Server.coocTerms, List.append_nil]⟩
  | cons e order ih =>
    obtain ⟨he, horder⟩ := List.forall_mem_cons.mp horder
    obtain ⟨t, slot, ht, hslot, hrec⟩ := hc.record hsmall hinfo he
    obtain ⟨hidx, related, hrelated⟩ :=
      h.term (h.key t (List.mem_of_getElem? ht) e.1 (HashMap.mem_of_lookup hslot))
    obtain ⟨related', hrelated', hstr, hhistory, hnow, -⟩ := hc.term hrelated
    have hlookup := (hc.termIndex e.1).trans hidx
    have hins : g.termIndex.insertNew e.1 0 = g.termIndex := if_pos (HashMap.mem_of_lookup hlookup)
    have hweight : weight g.totalIndexInfo.weiboNum related' (s.relate slot) =
        weight g.totalIndexInfo.weiboNum related (s.relate slot) := by
      simp only [weight, hhistory, hnow]
    have hlt := h.slot_lt ht hslot
    have hget : s.mRelateInfo[slot]? = some (s.relate slot) := by
      rw [State.relate, List.getElem?_eq_getElem hlt, Option.getD_some]
    obtain ⟨rest, hrest, heq⟩ := ih horder
      (found ++ [(related'.termstr, weight g.totalIndexInfo.weiboNum related' (s.relate slot))])
    have hlisted : Related s g.totalIndexInfo.weiboNum i e.1
        (related'.termstr, weight g.totalIndexInfo.weiboNum related' (s.relate slot)) := by
      refine ⟨related, slot, _, hrelated, ?_, hget, by rw [hstr, hweight]⟩
      rw [State.findCooc, ht, Option.bind_some, hslot]
    refine ⟨_ :: rest, .cons hlisted hrest, ?_⟩
    · rw [Server.coocTerms]
      simp only [hins, hlookup, Option.getD_some, hrelated', hread, if_true, relateInfoOf, hrec]
      rw [heq, List.append_assoc]
      rfl

/-- In a copy of the index an entry is found as it is, with its records. -/
theorem Copy.found (hc : Copy ord s g) (h : Inv s)
    (hsmall : (relateBytes s ord).length < 2 ^ 31) (hread : ∀ o, env.readahead o = true)
    {t : List UInt8} {i : Nat} {info : TermInfo}
    (hi : s.mTermIndex.lookup (env.hashlittle t) = some i) (hinfo : s.mTermInfo[i]? = some info) :
    Found env lines s g t ↔ info.dfNow.toNat = occurrences (lines.map Line.rawTerms) t := by
  have hidx : s.termIndex (env.hashlittle t) = i := by rw [State.termIndex, hi, Option.getD_some]
  have hfind : ∀ key, s.findCooc i key = info.coocTerm.lookup key := fun key => by
    rw [State.findCooc, hinfo, Option.bind_some]
  obtain ⟨info', hinfo', -, -, hdf, hkey⟩ := hc.term hinfo
  have hg : g.termIndex.lookup (env.hashlittle t) = some i := (hc.termIndex _).trans hi
  constructor
  · rintro ⟨index, info₁, found, ha⟩
    obtain rfl : i = index := Option.some.inj (hg.symm.trans ha.lookup)
    obtain rfl : info' = info₁ := Option.some.inj (hinfo'.symm.trans ha.entry)
    rw [← hdf]
    exact ha.df
  · intro hcount
    have hwalk : ∀ e ∈ env.ord.walk i info'.coocTerm, info'.coocTerm.lookup e.1 = some e.2 :=
      fun e he => env.ord.mem_walk.mp he
    obtain ⟨found, hlisted, hcooc⟩ := hc.coocTerms h hsmall hread hinfo' hwalk []
    refine ⟨i, info', found, hg, hinfo', hdf ▸ hcount, fun key => ?_, fun e he => ?_,
      hidx ▸ hlisted, fun work => ?_⟩
    · rw [hidx, hfind, hkey, Ne, AList.lookup_eq_none, not_not]
    · obtain ⟨info₁, slot, hinfo₁, hslot, hrec⟩ :=
        hc.record hsmall hinfo' (AList.mem_lookup_iff.mpr he)
      obtain rfl : info = info₁ := Option.some.inj (hinfo.symm.trans hinfo₁)
      refine ⟨slot, s.relate slot, ?_, ?_, hrec⟩
      · rw [hidx, hfind, hslot]
      · rw [State.relate, List.getElem?_eq_getElem (h.slot_lt hinfo hslot), Option.getD_some]
    · simp only [getCoocTerm, hg, hinfo', hcooc, List.nil_append]
      rfl

end

-- ---------------------------------------------------------------------------
-- From the lines to the server
-- ---------------------------------------------------------------------------

section
variable {hashlittle : List UInt8 → UInt32} {env : Env} {runs : List LineRun} {indexOrd ord : Order}
  {junk : Nat → List UInt8} {unset : Nat → Nat} {hotTermBuf : List SortItem}

def Hashed (lines : List Line) : Set (List UInt8) :=
  {t | ∃ line ∈ lines, t ∈ line.rawTerms ∨ t ∈ line.terms}

theorem injOn_occurs {lines : List Line} (hinj : Set.InjOn hashlittle (Hashed lines)) :
    Set.InjOn hashlittle {t | Occurs lines t} := by
  refine hinj.mono ?_
  rintro t ⟨line, hline, ht⟩
  exact ⟨line, hline, .inr ht⟩

theorem occurs_of_found {g : GlobalData} {s : State}
    (hs : s = indexRuns env.hashlittle State.empty runs) (hc : Copy ord s g)
    (hinj : Set.InjOn env.hashlittle (Hashed (runs.map LineRun.line))) {t : List UInt8}
    (ht : ∃ line ∈ runs.map LineRun.line, t ∈ line.rawTerms)
    (hf : Found env (runs.map LineRun.line) s g t) : Occurs (runs.map LineRun.line) t := by
  obtain ⟨index, info, found, ha⟩ := hf
  have hindex := ha.lookup
  rw [hc.termIndex, hs] at hindex
  obtain ⟨t', ht', he⟩ := occurs_of_indexRuns env.hashlittle (injOn_occurs hinj)
    (HashMap.mem_of_lookup hindex)
  obtain ⟨line, hline, hmem⟩ := ht
  obtain ⟨line', hline', hmem'⟩ := ht'
  obtain rfl := hinj ⟨line', hline', .inr hmem'⟩ ⟨line, hline, .inl hmem⟩ he
  exact ⟨line', hline', hmem'⟩

/-- The server finds a term of the lines if and only if the term is short
enough to be stored whole, no longer term is counted with it, and there is a
relation at all. -/
theorem found_iff (hread : ∀ o, env.readahead o = true) (runs : List LineRun)
    (hinj : Set.InjOn env.hashlittle (Hashed (runs.map LineRun.line)))
    (hfit : (indexRuns env.hashlittle State.empty runs).Fits)
    (hsmall : (relateBytes (indexRuns env.hashlittle State.empty runs) ord).length < 2 ^ 31)
    {t : List UInt8} (ht : ∃ line ∈ runs.map LineRun.line, t ∈ line.rawTerms) :
    (∃ g, createGlobalData unset hotTermBuf
        ((indexRuns env.hashlittle State.empty runs).dumpIndex indexOrd ord junk).2 = some g ∧
      Found env (runs.map LineRun.line) (indexRuns env.hashlittle State.empty runs) g t) ↔
    t.length ≤ 99 ∧
      occurrences ((runs.map LineRun.line).map Line.terms) t % 2 ^ 32 =
        occurrences ((runs.map LineRun.line).map Line.rawTerms) t ∧ FirstPairFits runs := by
  have hinv : Inv (indexRuns env.hashlittle State.empty runs) := inv_indexRuns env.hashlittle
  have hname := named_indexRuns env.hashlittle runs
  have hload := createGlobalData_isSome indexOrd ord junk hinv hfit hname hsmall unset hotTermBuf
  have hpair := inv_empty.used_indexRuns_iff env.hashlittle rfl rfl (injOn_occurs hinj)
  rw [← hpair, Ne, ← relateBytes_eq_nil ord]
  have hcopy : ∀ g, createGlobalData unset hotTermBuf
      ((indexRuns env.hashlittle State.empty runs).dumpIndex indexOrd ord junk).2 = some g →
      Copy ord (indexRuns env.hashlittle State.empty runs) g := fun g hg =>
    copy_of_createGlobalData indexOrd ord junk hinv hfit hname hsmall hg
  have hcount : Occurs (runs.map LineRun.line) t → ∀ g,
      Copy ord (indexRuns env.hashlittle State.empty runs) g →
      (Found env (runs.map LineRun.line) (indexRuns env.hashlittle State.empty runs) g t ↔
        occurrences ((runs.map LineRun.line).map Line.terms) t % 2 ^ 32 =
          occurrences ((runs.map LineRun.line).map Line.rawTerms) t) := by
    intro hocc g hc
    obtain ⟨i, info, hi, hinfo, hdf⟩ := indexRuns_entry env.hashlittle (injOn_occurs hinj) hocc
    rw [hc.found hinv hsmall hread hi hinfo, hdf, UInt32.toNat_ofNat']
  constructor
  · rintro ⟨g, hg, hf⟩
    have hc := hcopy g hg
    have hocc := occurs_of_found rfl hc hinj ht hf
    refine ⟨?_, (hcount hocc g hc).mp hf, ?_⟩
    · obtain ⟨line, -, hmem⟩ := hocc
      exact Line.length_le hmem
    · exact hload.mp (by rw [hg]; rfl)
  · rintro ⟨hlen, hn, hused⟩
    obtain ⟨g, hg⟩ := Option.isSome_iff_exists.mp (hload.mpr hused)
    obtain ⟨line, hline, hmem⟩ := ht
    exact ⟨g, hg, (hcount ⟨line, hline, Line.mem_terms_of_le hmem hlen⟩ g (hcopy g hg)).mpr hn⟩

end

/-- Two lines with the terms a and b. -/
theorem found_iff_ab :
    let env := plainEnv fun _ => .error
    let ord : Order := IterOrder.held _ _
    let run : LineRun := ⟨lineAB, fun _ => .ok, ord⟩
    let s := indexRuns JenkinsHash.hashString State.empty [run, run]
    (∃ g, createGlobalData (fun _ => 0) [] (s.dumpIndex ord ord fun _ => []).2 = some g ∧
      Found env [lineAB, lineAB] s g [97]) ↔
    [97].length ≤ 99 ∧
      occurrences ([lineAB, lineAB].map Line.terms) [97] % 2 ^ 32 =
        occurrences ([lineAB, lineAB].map Line.rawTerms) [97] ∧ FirstPairFits [run, run] := by
  have hterms : lineAB.terms = [[97], [98]] := by decide +kernel
  have hraw : lineAB.rawTerms = [[97], [98]] := by decide +kernel
  refine @found_iff (plainEnv fun _ => .error) _ _ _ _ _ (fun _ => rfl)
    [⟨lineAB, fun _ => .ok, IterOrder.held _ _⟩, ⟨lineAB, fun _ => .ok, IterOrder.held _ _⟩]
    (injOn_ab ?_) ⟨by decide +kernel, by decide +kernel⟩ (by decide +kernel) _
    ⟨lineAB, List.mem_cons_self, by simp [hraw]⟩
  rintro t ⟨line, hline, ht⟩
  obtain rfl : line = lineAB := by simpa using hline
  simpa [hterms, hraw] using ht

def longLine : Line := ⟨[109, 9] ++ List.replicate 100 97 ++ [9, 98], by decide, by decide⟩

/-- The server has no entry for a term of 100 bytes, although the hashes of
its first 99 bytes, of the whole term and of b differ. -/
theorem long_term_lost :
    let env := plainEnv fun _ => .error
    let ord : Order := IterOrder.held _ _
    let s := indexRuns JenkinsHash.hashString State.empty [⟨longLine, fun _ => .ok, ord⟩]
    let t : List UInt8 := List.replicate 100 97
    Set.InjOn JenkinsHash.hashString (Hashed [longLine]) ∧ s.Fits ∧ (relateBytes s ord).length < 2 ^ 31 ∧
      (∃ line ∈ [longLine], t ∈ line.rawTerms) ∧
      (createGlobalData (fun _ => 0) [] (s.dumpIndex ord ord fun _ => []).2).isSome ∧
      ¬ ∃ g, createGlobalData (fun _ => 0) [] (s.dumpIndex ord ord fun _ => []).2 = some g ∧
        Found env [longLine] s g t := by
  have hterms : longLine.terms = [List.replicate 99 97, [98]] := by decide +kernel
  have hraw : longLine.rawTerms = [List.replicate 100 97, [98]] := by decide +kernel
  have hlookup : (createGlobalData (fun _ => 0) [] ((indexRuns JenkinsHash.hashString
      State.empty [⟨longLine, fun _ => .ok, IterOrder.held _ _⟩]).dumpIndex (IterOrder.held _ _)
      (IterOrder.held _ _) fun _ => []).2).map
        (fun g => g.termIndex.lookup (JenkinsHash.hashString (List.replicate 100 97))) = some none := by
    decide +kernel
  refine ⟨?_, ⟨by decide +kernel, by decide +kernel⟩, by decide +kernel,
    ⟨longLine, by simp, by simp [hraw]⟩, ?_, ?_⟩
  · have hmem : ∀ t ∈ Hashed [longLine],
        t ∈ ([List.replicate 100 97, List.replicate 99 97, [98]] : List (List UInt8)) := by
      rintro t ⟨line, hline, ht⟩
      obtain rfl : line = longLine := by simpa using hline
      rw [hterms, hraw] at ht
      simp only [List.mem_cons, List.not_mem_nil, or_false] at ht ⊢
      tauto
    have hinj : ∀ a ∈ ([List.replicate 100 97, List.replicate 99 97, [98]] : List (List UInt8)),
        ∀ b ∈ ([List.replicate 100 97, List.replicate 99 97, [98]] : List (List UInt8)),
          JenkinsHash.hashString a = JenkinsHash.hashString b → a = b := by
      decide +kernel
    exact fun a ha b hb he => hinj a (hmem a ha) b (hmem b hb) he
  · rw [← Option.isSome_map, hlookup]
    rfl
  · rintro ⟨g, hg, index, info, found, ha⟩
    rw [hg, Option.map_some, Option.some.injEq] at hlookup
    cases hlookup.symm.trans ha.lookup

end Server

end TextMining.WordNet
