import TextMining.JenkinsHash.Keys
import TextMining.WordNet.View
import Mathlib.Data.List.FinRange

/-!
# The counting law

Lines indexed from the empty state, with every allocation succeeding and no
two of their terms hashed alike: the index has one term for each that occurs,
and its counters are the numbers of lines with a term and with a pair.
-/

namespace TextMining.WordNet

open State Cooc

def indexLines (hashlittle : List UInt8 → UInt32) (ord : Order) (s : State) (lines : List Line) :
    State :=
  run hashlittle s (lines.map fun line => .parseLineTerms line (fun _ => .ok) ord)

def Occurs (lines : List Line) (term : List UInt8) : Prop := ∃ line ∈ lines, term ∈ line.terms

section
variable {s : State}

variable (hashlittle : List UInt8 → UInt32)

theorem Inv.indexLines_view (h : Inv s) (hm : s.mNoMemory = false) (ord : Order)
    (lines : List Line) :
    Inv (indexLines hashlittle ord s lines) ∧
      (indexLines hashlittle ord s lines).mNoMemory = false ∧
      (indexLines hashlittle ord s lines).total.weiboNum =
        s.total.weiboNum + UInt64.ofNat lines.length ∧
      (indexLines hashlittle ord s lines).view =
        lines.foldl (fun v line => v.addLine .next TermData.again (newData hashlittle line.terms)
          (line.terms.map hashlittle)) s.view := by
  induction lines generalizing s with
  | nil => exact ⟨h, hm, (UInt64.add_zero _).symm, rfl⟩
  | cons line lines ih =>
    have hs := h.parseLineTerms hashlittle line (fun _ => .ok) ord
    have hok := h.indexTerms_ok hashlittle hm line.terms ord
    rw [← parseLineTerms_eq] at hok
    obtain ⟨hinv, hmem, hweibo, hview⟩ := ih hs hok.1
    refine ⟨hinv, hmem, ?_, ?_⟩
    · rw [List.length_cons, UInt64.ofNat_add, UInt64.add_comm (UInt64.ofNat _), ← UInt64.add_assoc]
      exact hweibo.trans (by rw [hok.2.1]; rfl)
    · exact hview.trans (by rw [hok.2.2]; rfl)

end

-- ---------------------------------------------------------------------------
-- Counters
-- ---------------------------------------------------------------------------

theorem again_iterate (n : Nat) (term : List UInt8) :
    TermData.again^[n] (.new term) = ⟨snprintf 64 term, 0, UInt32.ofNat (n + 1)⟩ := by
  induction n with
  | zero => rfl
  | succ n ih =>
    rw [Function.iterate_succ_apply', ih, TermData.again]
    simp [UInt32.ofNat_add]

theorem recordAfter_next (n : Nat) :
    recordAfter RelateTermInfo.next (n + 1) = some ⟨0, UInt32.ofNat (n + 1), 0⟩ := by
  induction n with
  | zero => rfl
  | succ n ih =>
    rw [recordAfter_succ, ih]
    simp [RelateTermInfo.next, RelateTermInfo.bump, UInt32.ofNat_add]

theorem recordAfter_eq_some {n : Nat} {r : RelateTermInfo}
    (h : recordAfter RelateTermInfo.next n = some r) : r = ⟨0, UInt32.ofNat n, 0⟩ := by
  cases n with
  | zero => cases h
  | succ n => exact (Option.some.inj ((recordAfter_next n).symm.trans h)).symm

theorem recordAfter_isSome {n : Nat} : (recordAfter RelateTermInfo.next n).isSome ↔ 0 < n := by
  cases n with
  | zero => simp [recordAfter]
  | succ n => simp [recordAfter_next]

section
variable (hashlittle : List UInt8 → UInt32) (ord : Order) {lines : List Line}

theorem mem_flatten_terms {term : List UInt8} :
    term ∈ (lines.map Line.terms).flatten ↔ Occurs lines term := by
  simp [Occurs]

theorem newData_of_injOn (hinj : Set.InjOn hashlittle {t | Occurs lines t})
    {terms : List (List UInt8)} (hsub : ∀ t ∈ terms, Occurs lines t) {t : List UInt8}
    (ht : t ∈ terms) : newData hashlittle terms (hashlittle t) = .new t := by
  have hs : (terms.find? fun t' => hashlittle t' = hashlittle t).isSome :=
    List.find?_isSome.mpr ⟨t, ht, by simp⟩
  obtain ⟨x, hx⟩ := Option.isSome_iff_exists.mp hs
  have he : hashlittle x = hashlittle t := by simpa using List.find?_some hx
  have hxt : x = t := hinj (hsub x (List.mem_of_find?_eq_some hx)) (hsub t ht) he
  rw [newData, hx, hxt, Option.getD_some]

def lineTally (lines : List Line) : View :=
  tally .next TermData.again (newData hashlittle (lines.map Line.terms).flatten)
    ((lines.map Line.terms).map (List.map hashlittle))

omit hashlittle in
theorem view_empty : State.empty.view = Index.empty := by
  funext hash
  simp [State.view, State.empty, Index.empty]

theorem foldl_lines (hinj : Set.InjOn hashlittle {t | Occurs lines t}) :
    lines.foldl (fun v line => v.addLine .next TermData.again (newData hashlittle line.terms)
      (line.terms.map hashlittle)) State.empty.view = lineTally hashlittle lines := by
  rw [lineTally, ← foldl_addLine, view_empty, List.map_map, List.foldl_map]
  refine List.foldl_ext _ _ _ fun v line hline => ?_
  refine Index.addLine_congr (fun hash hh => ?_) v
  obtain ⟨t, ht, rfl⟩ := List.mem_map.mp hh
  rw [newData_of_injOn hashlittle hinj (fun t' ht' => ⟨line, hline, ht'⟩) ht,
    newData_of_injOn hashlittle hinj (fun t' ht' => mem_flatten_terms.mp ht')
      (mem_flatten_terms.mpr ⟨line, hline, ht⟩)]

theorem indexLines_tally (hinj : Set.InjOn hashlittle {t | Occurs lines t}) :
    (indexLines hashlittle ord State.empty lines).view = lineTally hashlittle lines := by
  rw [(inv_empty.indexLines_view hashlittle rfl ord lines).2.2.2, foldl_lines hashlittle hinj]

omit hashlittle in
theorem occurs_of_mem_map (lines : List Line) : ∀ terms ∈ lines.map Line.terms, ∀ t ∈ terms,
    t ∈ {t | Occurs lines t} := by
  intro terms hterms t ht
  obtain ⟨line, hline, rfl⟩ := List.mem_map.mp hterms
  exact ⟨line, hline, ht⟩

theorem lineTally_entry (hinj : Set.InjOn hashlittle {t | Occurs lines t}) {t : List UInt8}
    (ht : Occurs lines t) :
    lineTally hashlittle lines (hashlittle t) = some
      ⟨⟨snprintf 64 t, 0, UInt32.ofNat (occurrences (lines.map Line.terms) t)⟩, fun hash =>
        if hash = hashlittle t then none
        else recordAfter .next (cooccurrences ((lines.map Line.terms).map (List.map hashlittle))
          (hashlittle t) hash)⟩ := by
  have hall := occurs_of_mem_map lines
  obtain ⟨line, hline, hmem⟩ := ht
  have hpos : 0 < occurrences (lines.map Line.terms) t :=
    occurrences_pos.mpr ⟨_, List.mem_map_of_mem hline, hmem⟩
  rw [lineTally, tally, occurrences_map hinj hall ⟨line, hline, hmem⟩]
  obtain ⟨n, hn⟩ := Nat.exists_eq_succ_of_ne_zero hpos.ne'
  rw [hn]
  simp only [newData_of_injOn hashlittle hinj (fun t' ht' => mem_flatten_terms.mp ht')
    (mem_flatten_terms.mpr ⟨line, hline, hmem⟩), again_iterate]

theorem occurs_of_lineTally {hash : UInt32} (h : lineTally hashlittle lines hash ≠ none) :
    ∃ t, Occurs lines t ∧ hashlittle t = hash := by
  rw [lineTally, tally] at h
  have hpos : 0 < occurrences ((lines.map Line.terms).map (List.map hashlittle)) hash := by
    refine Nat.pos_of_ne_zero fun h0 => ?_
    rw [h0] at h
    exact h rfl
  obtain ⟨hashes, hmem, hh⟩ := occurrences_pos.mp hpos
  obtain ⟨terms, hterms, rfl⟩ := List.mem_map.mp hmem
  obtain ⟨line, hline, rfl⟩ := List.mem_map.mp hterms
  obtain ⟨t, ht, rfl⟩ := List.mem_map.mp hh
  exact ⟨t, ⟨line, hline, ht⟩, rfl⟩

theorem cooccurrences_pos_lines {t b : List UInt8} :
    0 < cooccurrences (lines.map Line.terms) t b ↔
      ∃ line ∈ lines, t ∈ line.terms ∧ b ∈ line.terms := by
  simp [cooccurrences_pos]

def relatedTerms (lines : List Line) (terms : List (List UInt8)) (t : List UInt8) :
    List (List UInt8) :=
  terms.filter fun b => b ≠ t ∧ 0 < cooccurrences (lines.map Line.terms) t b

/-- The entry of `mTermInfo` for a term counts its lines and the lines it
shares with each other term. -/
structure Counts (hashlittle : List UInt8 → UInt32) (lines : List Line)
    (terms : List (List UInt8)) (s : State) (t : List UInt8) (info : TermInfo) : Prop where
  termstr : info.termstr = snprintf 64 t
  dfHistory : info.dfHistory = 0
  dfNow : info.dfNow.toNat = occurrences (lines.map Line.terms) t
  relateTermNum : info.relateTermNum.toNat = (relatedTerms lines terms t).length
  key : ∀ b ∈ terms, b ≠ t →
    (hashlittle b ∈ info.coocTerm ↔ ∃ line ∈ lines, t ∈ line.terms ∧ b ∈ line.terms)
  record : ∀ b ∈ terms, b ≠ t → ∀ slot, info.coocTerm.lookup (hashlittle b) = some slot →
    ∃ r, s.mRelateInfo[slot]? = some r ∧ r.numHistory = 0 ∧
      r.numNow.toNat = cooccurrences (lines.map Line.terms) t b

theorem related_iff (hinj : Set.InjOn hashlittle {t | Occurs lines t}) {t : List UInt8}
    (ht : Occurs lines t) {hash : UInt32} :
    (if hash = hashlittle t then none
      else recordAfter RelateTermInfo.next (cooccurrences
        ((lines.map Line.terms).map (List.map hashlittle)) (hashlittle t) hash)).isSome ↔
      ∃ b, Occurs lines b ∧ b ≠ t ∧ 0 < cooccurrences (lines.map Line.terms) t b ∧
        hashlittle b = hash := by
  have hall := occurs_of_mem_map lines
  constructor
  · intro h
    split at h
    · cases h
    · rename_i hne
      obtain ⟨hashes, hmem, -, hb⟩ := cooccurrences_pos.mp (recordAfter_isSome.mp h)
      obtain ⟨terms, hterms, rfl⟩ := List.mem_map.mp hmem
      obtain ⟨b, hb', rfl⟩ := List.mem_map.mp hb
      have hocc : Occurs lines b := hall terms hterms b hb'
      refine ⟨b, hocc, fun he => hne (he ▸ rfl), ?_, rfl⟩
      rw [← cooccurrences_map hinj hall ht hocc]
      exact recordAfter_isSome.mp h
  · rintro ⟨b, hb, hne, hpos, rfl⟩
    rw [if_neg fun he => hne (hinj hb ht he), recordAfter_isSome,
      cooccurrences_map hinj hall ht hb]
    exact hpos

theorem exists_terms (hinj : Set.InjOn hashlittle {t | Occurs lines t}) :
    ∃ terms : List (List UInt8), terms.Nodup ∧ (∀ t, t ∈ terms ↔ Occurs lines t) ∧
      terms.length = (indexLines hashlittle ord State.empty lines).mTermInfo.length ∧
      ∀ i t, terms[i]? = some t →
        (indexLines hashlittle ord State.empty lines).mTermIndex.lookup (hashlittle t) = some i := by
  have hs := (inv_empty.indexLines_view hashlittle rfl ord lines).1
  set s := indexLines hashlittle ord State.empty lines
  have hterm : ∀ i : Fin s.mTermInfo.length, ∃ t, Occurs lines t ∧
      s.mTermIndex.lookup (hashlittle t) = some i := by
    intro i
    obtain ⟨hash, hh⟩ := (hs.index i).mp i.isLt
    have hne : s.view hash ≠ none := by
      rw [Ne, view_eq_none hs, not_not]
      exact HashMap.mem_of_lookup hh
    rw [indexLines_tally hashlittle ord hinj] at hne
    obtain ⟨t, ht, rfl⟩ := occurs_of_lineTally hashlittle hne
    exact ⟨t, ht, hh⟩
  choose f hf using hterm
  refine ⟨List.ofFn f, ?_, fun t => ?_, by simp, fun i t ht => ?_⟩
  · refine List.nodup_ofFn.mpr fun i j hij => ?_
    have he := (hf i).2.symm.trans (hij ▸ (hf j).2)
    exact Fin.ext (Option.some.inj he)
  · rw [List.mem_ofFn]
    constructor
    · rintro ⟨i, rfl⟩
      exact (hf i).1
    · intro ht
      have hmem : hashlittle t ∈ s.mTermIndex := by
        rw [← not_not (a := hashlittle t ∈ s.mTermIndex), ← view_eq_none hs,
          indexLines_tally hashlittle ord hinj, lineTally_entry hashlittle hinj ht]
        simp
      obtain ⟨i, hi⟩ := HashMap.exists_of_mem hmem
      have hlt := (hs.index i).mpr ⟨_, hi⟩
      exact ⟨⟨i, hlt⟩, hinj (hf _).1 ht (hs.indexInj _ _ _ (hf ⟨i, hlt⟩).2 hi)⟩
  · obtain ⟨hi, rfl⟩ := List.getElem?_eq_some_iff.mp ht
    rw [List.getElem_ofFn]
    exact (hf _).2

theorem Counts.of_view (hinj : Set.InjOn hashlittle {t | Occurs lines t})
    (hcount : ∀ t, occurrences (lines.map Line.terms) t < 2 ^ 32) {terms : List (List UInt8)}
    (hd : terms.Nodup) (hterms : ∀ t, t ∈ terms ↔ Occurs lines t) {t : List UInt8}
    (ht : Occurs lines t) {i : Nat}
    (hi : (indexLines hashlittle ord State.empty lines).mTermIndex.lookup (hashlittle t) = some i)
    {info : TermInfo}
    (hinfo : (indexLines hashlittle ord State.empty lines).mTermInfo[i]? = some info) :
    Counts hashlittle lines terms (indexLines hashlittle ord State.empty lines) t info := by
  have hs := (inv_empty.indexLines_view hashlittle rfl ord lines).1
  have hview := lineTally_entry hashlittle hinj ht
  rw [← indexLines_tally hashlittle ord hinj] at hview
  set s := indexLines hashlittle ord State.empty lines
  rw [view_of_lookup hi, hinfo, Option.map_some, Option.some.injEq, State.entry,
    Entry.mk.injEq, TermData.mk.injEq] at hview
  obtain ⟨⟨hstr, hhis, hnow⟩, hrel⟩ := hview
  have hkey : ∀ hash, hash ∈ info.coocTerm ↔ ∃ b, Occurs lines b ∧ b ≠ t ∧
      0 < cooccurrences (lines.map Line.terms) t b ∧ hashlittle b = hash := by
    intro hash
    rw [← related_iff hashlittle hinj ht, ← congrFun hrel hash, Option.isSome_map,
      AList.lookup_isSome]
  have hsmall : ∀ n, n ≤ occurrences (lines.map Line.terms) t → (UInt32.ofNat n).toNat = n :=
    fun n hn => by
      rw [UInt32.toNat_ofNat', Nat.mod_eq_of_lt (lt_of_le_of_lt hn (hcount t))]
  refine ⟨hstr, hhis, ?_, ?_, ?_, ?_⟩
  · rw [hnow, hsmall _ le_rfl]
  · -- the hashes of the related terms are the keys of the map
    have hperm : ((relatedTerms lines terms t).map hashlittle).Perm info.coocTerm.keys := by
      refine (List.perm_ext_iff_of_nodup ?_ info.coocTerm.keys_nodup).mpr fun hash => ?_
      · refine (hd.filter _).map_on fun a ha b hb he => ?_
        exact hinj ((hterms a).mp (List.mem_filter.mp ha).1) ((hterms b).mp (List.mem_filter.mp hb).1)
          he
      · rw [← AList.mem_keys, hkey]
        simp only [relatedTerms, List.mem_map, List.mem_filter, hterms, decide_eq_true_eq,
          and_assoc]
    have hlen := hperm.length_eq
    rw [List.length_map, AList.keys, List.keys, List.length_map] at hlen
    rw [hs.relateNum info (List.mem_of_getElem? hinfo), hlen]
    rfl
  · intro b hb hne
    rw [hkey, ← cooccurrences_pos_lines]
    constructor
    · rintro ⟨b', hb', -, hpos, he⟩
      exact hinj hb' ((hterms b).mp hb) he ▸ hpos
    · exact fun hpos => ⟨b, (hterms b).mp hb, hne, hpos, rfl⟩
  · intro b hb hne slot hslot
    have hr := congrFun hrel (hashlittle b)
    have hocc := (hterms b).mp hb
    rw [hslot, Option.map_some, if_neg fun he => hne (hinj hocc ht he)] at hr
    rw [cooccurrences_map hinj (occurs_of_mem_map lines) ht hocc] at hr
    have hlt := hs.slot_lt hinfo hslot
    have hrec := recordAfter_eq_some hr.symm
    rw [State.relate, List.getElem?_eq_getElem hlt, Option.getD_some] at hrec
    refine ⟨_, List.getElem?_eq_getElem hlt, ?_⟩
    rw [hrec]
    exact ⟨rfl, hsmall _ (cooccurrences_le _ t b)⟩

/-- After the lines, `mTermInfo` has exactly one entry for each term that
occurs, and the entry counts the lines. -/
theorem counting_law (hinj : Set.InjOn hashlittle {t | Occurs lines t})
    (hcount : ∀ t, occurrences (lines.map Line.terms) t < 2 ^ 32) :
    let s := indexLines hashlittle ord State.empty lines
    ∃ terms : List (List UInt8), terms.Nodup ∧ (∀ t, t ∈ terms ↔ Occurs lines t) ∧
      terms.length = s.mTermInfo.length ∧
      ∀ i t, terms[i]? = some t → s.mTermIndex.lookup (hashlittle t) = some i ∧
        ∃ info, s.mTermInfo[i]? = some info ∧ Counts hashlittle lines terms s t info := by
  intro s
  obtain ⟨terms, hd, hterms, hlen, hidx⟩ := exists_terms hashlittle ord hinj
  refine ⟨terms, hd, hterms, hlen, fun i t hi => ⟨hidx i t hi, ?_⟩⟩
  have ht : Occurs lines t := (hterms t).mp (List.mem_of_getElem? hi)
  have hlt : i < s.mTermInfo.length := hlen ▸ (List.getElem?_eq_some_iff.mp hi).1
  exact ⟨_, List.getElem?_eq_getElem hlt, Counts.of_view hashlittle ord hinj hcount hd hterms ht
    (hidx i t hi) (List.getElem?_eq_getElem hlt)⟩

end

def lineAB : Line := ⟨[109, 9, 97, 9, 98], by decide, by decide⟩

theorem injOn_ab {S : Set (List UInt8)} (h : ∀ t ∈ S, t = [97] ∨ t = [98]) :
    Set.InjOn JenkinsHash.hashString S := by
  have hdiff : JenkinsHash.hashString [97] ≠ JenkinsHash.hashString [98] := by decide +kernel
  intro a ha b hb he
  rcases h a ha with rfl | rfl <;> rcases h b hb with rfl | rfl
  · rfl
  · exact absurd he hdiff
  · exact absurd he.symm hdiff
  · rfl

/-- Two lines with the terms a and b. -/
theorem counting_law_ab :
    let hashlittle := JenkinsHash.hashString
    let s := indexLines hashlittle (IterOrder.held _ _) State.empty [lineAB, lineAB]
    ∃ terms : List (List UInt8), terms.Nodup ∧ (∀ t, t ∈ terms ↔ Occurs [lineAB, lineAB] t) ∧
      terms.length = s.mTermInfo.length ∧
      ∀ i t, terms[i]? = some t → s.mTermIndex.lookup (hashlittle t) = some i ∧
        ∃ info, s.mTermInfo[i]? = some info ∧
          Counts hashlittle [lineAB, lineAB] terms s t info := by
  have hterms : lineAB.terms = [[97], [98]] := by decide +kernel
  refine counting_law _ _ (injOn_ab ?_) fun t => (occurrences_le _ t).trans_lt (by decide)
  rintro t ⟨line, hline, ht⟩
  obtain rfl : line = lineAB := by simpa using hline
  simpa [hterms] using ht

end TextMining.WordNet
