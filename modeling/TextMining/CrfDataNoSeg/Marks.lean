import TextMining.CrfDataNoSeg.TagLabels

/-!
# The labels mark the tags

Every character of a tag is labelled as one. The flag of the loop is set again
only by a character that belongs to no tag, so a tag that follows another one
directly, or behind spaces, is not begun.
-/

namespace TextMining.CrfDataNoSeg

open AhoCorasick (Dict clear lastId Root)

-- ---------------------------------------------------------------------------
-- What is matched
-- ---------------------------------------------------------------------------

structure TagAutomaton where
  dict : Dict
  automaton : AhoCorasick
  built : (clear.insertAll dict).buildAutomata = some automaton

def pairsFrom : Nat → List (List Int) → MatchSet
  | _, [] => []
  | pos, ids :: found => (ids.map fun id => (id, pos)) ++ pairsFrom (pos + 1) found

section
variable {text : List UInt8} {i : Int} {off pos : Nat}

theorem matchOffLoop_scan (A : AhoCorasick) (off pos : Nat) (ret : MatchSet) (str : List UInt8) :
    matchOffLoop A off pos ret str = (A.scan off str).map fun found => ret ++ pairsFrom pos found := by
  induction str generalizing off pos ret with
  | nil => exact congrArg some (List.append_nil ret).symm
  | cons c str ih =>
    rw [matchOffLoop, AhoCorasick.scan, Option.map_bind]
    refine Option.bind_congr fun off _ => ?_
    rw [Function.comp_apply]
    cases (A.node off).child c with
    | none =>
      dsimp only
      rw [Option.map_map]
      exact ih off (pos + 1) ret
    | some off =>
      dsimp only
      rw [Option.map_bind]
      refine Option.bind_congr fun ids _ => ?_
      rw [Function.comp_apply, Option.map_map, ih]
      refine congrArg (Option.map · _) (funext fun found => ?_)
      exact List.append_assoc _ _ _

theorem mem_pairsFrom {found : List (List Int)} : (i, off) ∈ pairsFrom pos found ↔
    ∃ k ids, found[k]? = some ids ∧ i ∈ ids ∧ off = pos + k := by
  induction found generalizing pos with
  | nil =>
    refine iff_of_false List.not_mem_nil ?_
    rintro ⟨k, ids, hk, -⟩
    cases hk
  | cons first found ih =>
    rw [pairsFrom, List.mem_append, ih, List.mem_map]
    constructor
    · rintro (⟨id, hid, he⟩ | ⟨k, ids, hk, hi, rfl⟩)
      · cases he
        exact ⟨0, first, rfl, hid, rfl⟩
      · exact ⟨k + 1, ids, hk, hi, by omega⟩
    · rintro ⟨k, ids, hk, hi, rfl⟩
      cases k with
      | zero =>
        cases hk
        exact .inl ⟨i, hi, rfl⟩
      | succ k => exact .inr ⟨k, ids, hk, hi, by omega⟩

theorem getMatchOff_spec (t : TagAutomaton) (text : List UInt8) :
    ∃ R, getMatchOff t.automaton text = some R ∧ ∀ i off, (i, off) ∈ R ↔
      off < text.length ∧ i ≠ AhoCorasick.None ∧
        ∃ w, w ≠ [] ∧ lastId t.dict w = some i ∧ w <:+ text.take (off + 1) := by
  obtain ⟨htrie, -, -⟩ := AhoCorasick.insertAll_spec AhoCorasick.trie_clear t.dict
  obtain ⟨B, found, hB, hfound, hlen, hids⟩ := AhoCorasick.scan_build htrie text
  obtain rfl : B = t.automaton := Option.some.inj (hB.symm.trans t.built)
  refine ⟨_, by rw [getMatchOff, matchOffLoop_scan, hfound, Option.map_some], fun i off => ?_⟩
  rw [List.nil_append, mem_pairsFrom]
  constructor
  · rintro ⟨k, ids, hk, hi, rfl⟩
    obtain ⟨hlt, -⟩ := List.getElem?_eq_some_iff.mp hk
    rw [Nat.zero_add, ← hlen]
    exact ⟨hlt, AhoCorasick.endsIn_dict.mp ((hids k ids hk i).mp hi)⟩
  · rintro ⟨hlt, hends⟩
    rw [← hlen] at hlt
    exact ⟨off, found[off], List.getElem?_eq_getElem hlt,
      (hids off _ (List.getElem?_eq_getElem hlt) i).mpr (AhoCorasick.endsIn_dict.mpr hends),
      (Nat.zero_add off).symm⟩

theorem totalSet_spec (ts : List TagAutomaton) (text : List UInt8) :
    ∃ R, totalSet (ts.map TagAutomaton.automaton) text = some R ∧ ∀ i off, (i, off) ∈ R ↔
      ∃ t ∈ ts, off < text.length ∧ i ≠ AhoCorasick.None ∧
        ∃ w, w ≠ [] ∧ lastId t.dict w = some i ∧ w <:+ text.take (off + 1) := by
  have hrun : ∀ (ts : List TagAutomaton) (total : MatchSet), ∃ R,
      (ts.map TagAutomaton.automaton).foldlM
        (fun total A => (getMatchOff A text).map fun found => total ++ found) total = some R ∧
      ∀ i off, (i, off) ∈ R ↔ (i, off) ∈ total ∨ ∃ t ∈ ts, off < text.length ∧
        i ≠ AhoCorasick.None ∧
          ∃ w, w ≠ [] ∧ lastId t.dict w = some i ∧ w <:+ text.take (off + 1) := by
    intro ts
    induction ts with
    | nil =>
      refine fun total => ⟨total, rfl, fun i off => (or_iff_left ?_).symm⟩
      rintro ⟨t, ht, -⟩
      cases ht
    | cons t ts ih =>
      intro total
      obtain ⟨found, hfound, hmem⟩ := getMatchOff_spec t text
      obtain ⟨R, hR, hrest⟩ := ih (total ++ found)
      refine ⟨R, ?_, fun i off => ?_⟩
      · rw [List.map_cons, List.foldlM_cons, hfound]
        exact hR
      · rw [hrest, List.mem_append, hmem, or_assoc, List.exists_mem_cons_iff]
  obtain ⟨R, hR, hmem⟩ := hrun ts []
  refine ⟨R, hR, fun i off => (hmem i off).trans (or_iff_right List.not_mem_nil)⟩

end

-- ---------------------------------------------------------------------------
-- Occurrences
-- ---------------------------------------------------------------------------

def OccursAt (w text : List UInt8) (p : Nat) : Prop := w <+: text.drop p

def Covered (entries : Dict) (text : List UInt8) (o : Nat) : Prop :=
  ∃ e ∈ entries, ∃ p, OccursAt e.1 text p ∧ p ≤ o ∧ o < p + e.1.length

def reported (entries : Dict) : Dict := entries.filter fun e => e.2 ≠ AhoCorasick.None

structure OneToOne (tagNameMap : OrdMap Int32 (List UInt8)) (entries : Dict) : Prop where
  name : ∀ e ∈ entries, tagNameMap.lookup (Int32.ofInt e.2) = some e.1
  id : ∀ e ∈ entries, ∀ e' ∈ entries, e.1 = e'.1 → e.2 = e'.2
  plain : ∀ e ∈ entries, e.1 ≠ [] ∧ 32 ∉ e.1

def tagEntries (ts : List TagAutomaton) : Dict := ts.flatMap TagAutomaton.dict

section
variable {w text : List UInt8} {off o p : Nat}

theorem OccursAt.length_le (h : OccursAt w text p) (hne : w ≠ []) : p + w.length ≤ text.length := by
  have hlen : w.length ≤ (text.drop p).length := List.IsPrefix.length_le h
  have hpos := List.length_pos_iff.mpr hne
  rw [List.length_drop] at hlen
  omega

theorem suffix_take_iff (hne : w ≠ []) : off < text.length ∧ w <:+ text.take (off + 1) ↔
    ∃ p, OccursAt w text p ∧ p + w.length = off + 1 := by
  constructor
  · rintro ⟨hoff, u, hu⟩
    have hlen : (u ++ w).length = off + 1 := by rw [hu, List.length_take, Nat.min_eq_left hoff]
    rw [List.length_append] at hlen
    refine ⟨u.length, ?_, hlen⟩
    rw [OccursAt, ← List.take_append_drop (off + 1) text, ← hu, List.append_assoc, List.drop_left]
    exact List.prefix_append _ _
  · rintro ⟨p, hp, hend⟩
    have hle := hp.length_le hne
    refine ⟨by omega, text.take p, ?_⟩
    rw [← hend, List.take_add]
    exact congrArg _ (List.prefix_iff_eq_take.mp hp)

theorem inTag_iff {tagNameMap : OrdMap Int32 (List UInt8)} {ts : List TagAutomaton}
    (h : OneToOne tagNameMap (tagEntries ts)) {R : MatchSet}
    (hR : ∀ i off, (i, off) ∈ R ↔ ∃ t ∈ ts, off < text.length ∧ i ≠ AhoCorasick.None ∧
      ∃ w, w ≠ [] ∧ lastId t.dict w = some i ∧ w <:+ text.take (off + 1)) :
    inTag o R tagNameMap = true ↔ Covered (reported (tagEntries ts)) text o := by
  have hentry : ∀ t ∈ ts, ∀ e ∈ t.dict, e ∈ tagEntries ts := fun t ht e he =>
    List.mem_flatMap.mpr ⟨t, ht, he⟩
  simp only [inTag, List.any_eq_true, decide_eq_true_eq]
  constructor
  · rintro ⟨⟨i, off⟩, hin, hlo, hhi⟩
    obtain ⟨t, ht, hoff, hi, w, hne, hlast, hw⟩ := (hR i off).mp hin
    have hmem := hentry t ht _ (AhoCorasick.lastId_mem hlast)
    obtain ⟨p, hp, hend⟩ := (suffix_take_iff hne).mp ⟨hoff, hw⟩
    rw [h.name _ hmem, Option.getD_some] at hlo
    refine ⟨(w, i), List.mem_filter.mpr ⟨hmem, decide_eq_true hi⟩, p, hp, ?_⟩
    dsimp only at hlo hhi ⊢
    omega
  · rintro ⟨⟨w, i⟩, hin, p, hp, hlo, hhi⟩
    obtain ⟨hmem, hi⟩ := List.mem_filter.mp hin
    obtain ⟨hne, -⟩ := h.plain _ hmem
    obtain ⟨t, ht, hdict⟩ := List.mem_flatMap.mp hmem
    have hlast : lastId t.dict w = some i := by
      cases hl : lastId t.dict w with
      | none => exact absurd rfl (AhoCorasick.lastId_eq_none.mp hl _ hdict)
      | some j =>
        exact congrArg some (h.id (w, j) (hentry t ht _ (AhoCorasick.lastId_mem hl)) (w, i) hmem rfl)
    have hpos : 0 < w.length := List.length_pos_iff.mpr hne
    have hend : o < p + w.length := hhi
    have hoccurs : ∃ q, OccursAt w text q ∧ q + w.length = p + w.length - 1 + 1 :=
      ⟨p, hp, (Nat.sub_add_cancel (by omega)).symm⟩
    obtain ⟨hoff, hw⟩ := (suffix_take_iff hne).mpr hoccurs
    refine ⟨(i, p + w.length - 1), (hR _ _).mpr ⟨t, ht, hoff, of_decide_eq_true hi, w, hne, hlast,
      hw⟩, ?_⟩
    rw [h.name _ hmem, Option.getD_some]
    dsimp only
    omega

end

-- ---------------------------------------------------------------------------
-- Positions of characters
-- ---------------------------------------------------------------------------

section
variable {name before before' after after' : List Character} {c c' : Character} {off : Nat}

theorem placed_append : placed off (before ++ after) =
    placed off before ++ placed (off + (bytesOf before).length) after := by
  induction before generalizing off with
  | nil => rfl
  | cons c before ih =>
    rw [List.cons_append, placed, ih, placed, bytesOf_cons, List.length_append, Nat.add_assoc,
      List.cons_append]

theorem map_snd_placed (off : Nat) (cs : List Character) : (placed off cs).map Prod.snd = cs := by
  induction cs generalizing off with
  | nil => rfl
  | cons c cs ih => exact congrArg (c :: ·) (ih _)

theorem placed_eq_append {b a : List (Nat × Character)} {e : Nat × Character}
    (h : placed off name = b ++ e :: a) : ∃ before after, name = before ++ e.2 :: after ∧
      e.1 = off + (bytesOf before).length ∧ b = placed off before ∧
      a = placed (e.1 + e.2.bytes.length) after := by
  induction b generalizing off name with
  | nil =>
    cases name with
    | nil => cases h
    | cons c name =>
      cases h
      exact ⟨[], name, rfl, rfl, rfl, rfl⟩
  | cons x b ih =>
    cases name with
    | nil => cases h
    | cons c name =>
      obtain ⟨rfl, hrest⟩ := List.cons.inj h
      obtain ⟨before, after, rfl, he, rfl, rfl⟩ := ih hrest
      refine ⟨c :: before, after, rfl, ?_, rfl, rfl⟩
      rw [he, bytesOf_cons, List.length_append, Nat.add_assoc]

theorem split_unique (h : before ++ c :: after = before' ++ c' :: after')
    (hoff : (bytesOf before).length = (bytesOf before').length) : before = before' := by
  have hpos := c.nonempty
  have hpos' := c'.nonempty
  rcases List.append_eq_append_iff.mp h with ⟨as, rfl, hc⟩ | ⟨bs, rfl, hc⟩
  · cases as with
    | nil => exact (List.append_nil before).symm
    | cons x as =>
      obtain ⟨rfl, -⟩ := List.cons.inj hc
      rw [bytesOf_append, bytesOf_cons, List.length_append, List.length_append] at hoff
      omega
  · cases bs with
    | nil => exact List.append_nil before'
    | cons x bs =>
      obtain ⟨rfl, -⟩ := List.cons.inj hc
      rw [bytesOf_append, bytesOf_cons, List.length_append, List.length_append] at hoff
      omega

theorem pairwise_placed (off : Nat) (cs : List Character) :
    ((placed off cs).map Prod.fst).Pairwise (· < ·) ∧ ∀ e ∈ placed off cs, off ≤ e.1 := by
  induction cs generalizing off with
  | nil => exact ⟨.nil, fun e he => absurd he List.not_mem_nil⟩
  | cons c cs ih =>
    obtain ⟨hpairs, hle⟩ := ih (off + c.bytes.length)
    have hpos := c.nonempty
    refine ⟨List.pairwise_cons.mpr ⟨fun o ho => ?_, hpairs⟩, fun e he => ?_⟩
    · obtain ⟨e, he, rfl⟩ := List.mem_map.mp ho
      have hoff := hle e he
      omega
    · rcases List.mem_cons.mp he with rfl | he
      · exact Nat.le_refl off
      · have hoff := hle e he
        omega

end

-- ---------------------------------------------------------------------------
-- The labels
-- ---------------------------------------------------------------------------

/-- A tag occurs there, and no tag that starts earlier reaches as far. -/
def Leads (entries : Dict) (text w : List UInt8) (p : Nat) : Prop :=
  OccursAt w text p ∧ ∀ e ∈ entries, ∀ q < p, OccursAt e.1 text q → q + e.1.length ≤ p

/-- The lines label the characters of the tags, and each tag that no earlier
one overlaps is begun. -/
structure MarksTags (entries : Dict) (name : List Character) (ts : List Token) : Prop where
  ordered : (ts.map Token.curse).Pairwise (· < ·)
  tagged : ∀ before c after, name = before ++ c :: after → c.isSpace = false →
    ((∃ t ∈ ts, t.curse = (bytesOf before).length ∧ t.tag ≠ .outside) ↔
      Covered entries (bytesOf name) (bytesOf before).length)
  begins : ∀ before c after, name = before ++ c :: after → ∀ e ∈ entries,
    Leads entries (bytesOf name) e.1 (bytesOf before).length →
      ∃ t ∈ ts, t.curse = (bytesOf before).length ∧ t.tag = .begin

/-- The id that the automaton takes for none names no tag but those that others
cover, and the last character before such a tag that is not a space belongs to
no tag. -/
structure Separated (entries : Dict) (name : List Character) : Prop where
  reserved : ∀ before c after, name = before ++ c :: after → c.isSpace = false →
    Covered entries (bytesOf name) (bytesOf before).length →
      Covered (reported entries) (bytesOf name) (bytesOf before).length
  apart : ∀ before c after, name = before ++ c :: after → ∀ e ∈ entries,
    Leads entries (bytesOf name) e.1 (bytesOf before).length →
      ∀ front d spaces, before = front ++ d :: spaces → d.isSpace = false →
        (∀ s ∈ spaces, s.isSpace = true) →
          ¬ Covered entries (bytesOf name) (bytesOf front).length

section
variable {entries : Dict} {name : List Character} {ts : List Token}

theorem covered_of_reported {text : List UInt8} {o : Nat} (h : Covered (reported entries) text o) :
    Covered entries text o := by
  obtain ⟨e, he, hrest⟩ := h
  exact ⟨e, List.mem_of_mem_filter he, hrest⟩

/-- What the lines say of a name when `marked` characters are labelled. -/
structure Lines (marked : Nat → Bool) (name : List Character) (ts : List Token) : Prop where
  ordered : (ts.map Token.curse).Pairwise (· < ·)
  label : ∀ before c after, name = before ++ c :: after → c.isSpace = false → ∀ l, l ≠ .outside →
    ((∃ t ∈ ts, t.curse = (bytesOf before).length ∧ t.tag = l) ↔
      l = Runs.labelOf (fun e : Nat × Character => marked e.1)
        (Runs.flagAfter (fun e => e.2.isSpace) (fun e => marked e.1) true (placed 0 before))
        ((bytesOf before).length, c))

theorem lines_labels (marked : Nat → Bool) (wordBflag : Nat → Nat) (name : List Character) :
    Lines marked name ((Runs.labels (fun e => e.2.isSpace) (fun e => marked e.1) true
      (placed 0 name)).map (tokenOf wordBflag)) := by
  constructor
  · rw [List.map_map]
    have hsub : ((Runs.labels (fun e => e.2.isSpace) (fun e => marked e.1) true
        (placed 0 name)).map fun e => e.1).Sublist (placed 0 name) := Runs.labels_sublist
    have hpairs := List.Pairwise.sublist (hsub.map Prod.fst) (pairwise_placed 0 name).1
    rwa [List.map_map] at hpairs
  · intro before c after hname hc l _
    simp only [List.mem_map, Runs.mem_labels]
    constructor
    · rintro ⟨t, ⟨e, ⟨b, a, hsplit, -, hlabel⟩, rfl⟩, hcurse, rfl⟩
      obtain ⟨before', after', hname', hoff, rfl, -⟩ := placed_eq_append hsplit
      have hcurse' : e.1.1 = (bytesOf before).length := hcurse
      rw [Nat.zero_add] at hoff
      obtain rfl := split_unique (hname.symm.trans hname') (hcurse'.symm.trans hoff)
      have hc' : c = e.1.2 := (List.cons.inj (List.append_cancel_left (hname.symm.trans hname'))).1
      have he : e.1 = ((bytesOf before).length, c) := Prod.ext hoff hc'.symm
      rw [he] at hlabel
      exact hlabel
    · intro hl
      refine ⟨_, ⟨(((bytesOf before).length, c), l), ⟨placed 0 before,
        placed ((bytesOf before).length + c.bytes.length) after, ?_, hc, hl⟩, rfl⟩, rfl, rfl⟩
      rw [hname, placed_append, placed, Nat.zero_add]

theorem lines_nil {marked : Nat → Bool} (h : ∀ o, marked o = false) (name : List Character) :
    Lines marked name [] := by
  refine ⟨.nil, fun before c after _ _ l hl => ?_⟩
  refine iff_of_false ?_ ?_
  · rintro ⟨t, ht, -⟩
    cases ht
  · rw [Runs.labelOf, h, if_neg Bool.false_ne_true]
    exact hl

theorem Leads.covered {tagNameMap : OrdMap Int32 (List UInt8)} (h : OneToOne tagNameMap entries)
    {before after : List Character} {c : Character} (hname : name = before ++ c :: after)
    {e : List UInt8 × Int} (he : e ∈ entries)
    (hleads : Leads entries (bytesOf name) e.1 (bytesOf before).length) :
    c.isSpace = false ∧ Covered entries (bytesOf name) (bytesOf before).length := by
  obtain ⟨hne, hspace⟩ := h.plain e he
  refine ⟨?_, e, he, _, hleads.1, Nat.le_refl _, ?_⟩
  · have hocc := hleads.1
    rw [OccursAt, hname, bytesOf_append, List.drop_left, bytesOf_cons] at hocc
    obtain ⟨b, w, hw⟩ := List.exists_cons_of_ne_nil hne
    obtain ⟨x, rest, hx⟩ := List.exists_cons_of_length_pos c.nonempty
    rw [hw, hx, List.cons_append, List.cons_prefix_cons] at hocc
    rw [Character.isSpace, hx, List.head?_cons, decide_eq_false_iff_not, Option.some.injEq]
    rintro rfl
    exact hspace (by rw [hw, hocc.1]; exact List.mem_cons_self)
  · have hpos := List.length_pos_iff.mpr hne
    omega

theorem Lines.tagged {marked : Nat → Bool} (hl : Lines marked name ts)
    (before : List Character) (c : Character) (after : List Character)
    (hname : name = before ++ c :: after) (hc : c.isSpace = false) :
    (∃ t ∈ ts, t.curse = (bytesOf before).length ∧ t.tag ≠ .outside) ↔
      marked (bytesOf before).length = true := by
  constructor
  · rintro ⟨t, ht, hcurse, htag⟩
    have hlabel := (hl.label before c after hname hc t.tag htag).mp ⟨t, ht, hcurse, rfl⟩
    by_contra hm
    rw [Runs.labelOf, if_neg hm] at hlabel
    exact htag hlabel
  · intro hm
    have hlabel := hl.label before c after hname hc
    simp only [Runs.labelOf, hm, if_true] at hlabel
    split at hlabel
    · obtain ⟨t, ht, hcurse, htag⟩ := (hlabel .begin (by decide)).mpr rfl
      exact ⟨t, ht, hcurse, by rw [htag]; decide⟩
    · obtain ⟨t, ht, hcurse, htag⟩ := (hlabel .inside (by decide)).mpr rfl
      exact ⟨t, ht, hcurse, by rw [htag]; decide⟩

theorem Lines.marksTags_iff {marked : Nat → Bool} (hl : Lines marked name ts)
    {tagNameMap : OrdMap Int32 (List UInt8)} (h : OneToOne tagNameMap entries)
    (hmarked : ∀ o, marked o = true ↔ Covered (reported entries) (bytesOf name) o) :
    MarksTags entries name ts ↔ Separated entries name := by
  constructor
  · intro hmarks
    have hreserved : ∀ before c after, name = before ++ c :: after → c.isSpace = false →
        Covered entries (bytesOf name) (bytesOf before).length →
          Covered (reported entries) (bytesOf name) (bytesOf before).length := by
      intro before c after hname hc hcov
      rw [← hmarked, ← hl.tagged before c after hname hc]
      exact (hmarks.tagged before c after hname hc).mpr hcov
    refine ⟨hreserved, ?_⟩
    intro before c after hname e he hleads front d spaces hbefore hd hspaces hcov
    obtain ⟨hc, -⟩ := hleads.covered h hname he
    have hlabel := (hl.label before c after hname hc .begin (by decide)).mp
      (hmarks.begins before c after hname e he hleads)
    -- the last character is marked, so the flag is not set
    have hfront : name = front ++ d :: (spaces ++ c :: after) := by
      rw [hname, hbefore, List.append_assoc, List.cons_append]
    have hm := (hmarked _).mpr (hreserved front d _ hfront hd hcov)
    have hplaced : placed 0 before = placed 0 front ++ ((bytesOf front).length, d) ::
        placed ((bytesOf front).length + d.bytes.length) spaces := by
      rw [hbefore, placed_append, placed, Nat.zero_add]
    have hflag : Runs.flagAfter (fun e : Nat × Character => e.2.isSpace) (fun e => marked e.1) true
        (placed 0 before) = false := by
      rw [hplaced]
      refine Runs.flagAfter_eq_false (x := ((bytesOf front).length, d)) hd hm fun y hy => ?_
      exact hspaces y.2 (map_snd_placed _ spaces ▸ List.mem_map_of_mem hy)
    rw [hflag, Runs.labelOf] at hlabel
    split at hlabel
    · cases hlabel
    · cases hlabel
  · intro hsep
    refine ⟨hl.ordered, fun before c after hname hc => ?_, ?_⟩
    · rw [hl.tagged before c after hname hc, hmarked]
      exact ⟨covered_of_reported, hsep.reserved before c after hname hc⟩
    · intro before c after hname e he hleads
      obtain ⟨hc, hcov⟩ := hleads.covered h hname he
      have hm := (hmarked _).mpr (hsep.reserved before c after hname hc hcov)
      refine (hl.label before c after hname hc .begin (by decide)).mpr ?_
      rw [Runs.labelOf, if_pos hm, Runs.flagAfter_eq_true]
      · rfl
      · intro b x a hsplit hx ha
        obtain ⟨front, spaces, hbefore, hoff, -, rfl⟩ := placed_eq_append hsplit
        rw [Nat.zero_add] at hoff
        have hspaces : ∀ s ∈ spaces, s.isSpace = true := by
          intro s hs
          rw [← map_snd_placed (x.1 + x.2.bytes.length) spaces, List.mem_map] at hs
          obtain ⟨y, hy, rfl⟩ := hs
          exact ha y hy
        have hnot := hsep.apart before c after hname e he hleads front x.2 spaces hbefore hx hspaces
        rw [hoff]
        exact Bool.eq_false_iff.mpr fun hmx => hnot (covered_of_reported ((hmarked _).mp hmx))

end

/-- The lines written for a name mark the matched tags if and only if the tags
are separated in it. -/
theorem tokens_marksTags_iff {tagMapAC : OrdMap (List UInt8) AhoCorasick}
    {targetKeyList : List (List UInt8)} {tagNameMap : OrdMap Int32 (List UInt8)}
    {ts : List TagAutomaton}
    (hts : targetKeyList.filterMap tagMapAC.lookup = ts.map TagAutomaton.automaton)
    (h : OneToOne tagNameMap (tagEntries ts)) (scwout : ScwOut) {name : List Character}
    (hname : ∀ c ∈ name, c.IsUtf8) :
    ∃ lines, tokens tagMapAC targetKeyList tagNameMap scwout (bytesOf name) = some lines ∧
      (MarksTags (tagEntries ts) name lines ↔ Separated (tagEntries ts) name) := by
  obtain ⟨R, hR, hmem⟩ := totalSet_spec ts (bytesOf name)
  have hmarked : ∀ o, inTag (o : Nat) R tagNameMap = true ↔
      Covered (reported (tagEntries ts)) (bytesOf name) o := fun o => inTag_iff h hmem
  rw [tokens, hts, hR, Option.bind_some, labelled]
  split
  · rename_i hnil
    refine ⟨[], rfl, (lines_nil (fun o => ?_) name).marksTags_iff h hmarked⟩
    rw [hnil]
    rfl
  · rw [labelLoop_eq hname (Nat.le_refl _)]
    exact ⟨_, rfl, (lines_labels _ _ name).marksTags_iff h hmarked⟩

-- ---------------------------------------------------------------------------
-- Two tags of one letter
-- ---------------------------------------------------------------------------

def letterB : Character := ⟨[98], by decide, by decide⟩

def letterTags : TagAutomaton where
  dict := [([97], 1), ([98], 2)]
  automaton := (clear.insertAll [([97], 1), ([98], 2)]).buildAutomata.get (by decide +kernel)
  built := (Option.some_get _).symm

def letterNames : OrdMap Int32 (List UInt8) := (OrdMap.empty.insert 1 [97]).insert 2 [98]

theorem letterTags_oneToOne : OneToOne letterNames (tagEntries [letterTags]) := by
  have hentries : tagEntries [letterTags] = [([97], 1), ([98], 2)] := rfl
  rw [hentries]
  constructor
  · simp only [List.forall_mem_cons, List.not_mem_nil, false_imp_iff, implies_true, and_true]
    exact ⟨rfl, rfl⟩
  · simp only [List.forall_mem_cons, List.not_mem_nil, false_imp_iff, implies_true, and_true]
    decide
  · simp only [List.forall_mem_cons, List.not_mem_nil, false_imp_iff, implies_true, and_true]
    decide

def letterMap : OrdMap (List UInt8) AhoCorasick :=
  OrdMap.empty.insert (text "color") letterTags.automaton

theorem isUtf8_letters : ∀ c ∈ [letterA, letterB], c.IsUtf8 := by
  simp only [List.forall_mem_cons, List.not_mem_nil, false_imp_iff, implies_true, and_true]
  exact ⟨⟨97, [], rfl, by decide, by decide, fun x hx => absurd hx List.not_mem_nil⟩,
    98, [], rfl, by decide, by decide, fun x hx => absurd hx List.not_mem_nil⟩

theorem tokens_marksTags_iff_letters : ∃ lines,
    tokens letterMap [text "color"] letterNames ⟨[97, 98, 0], [0x02000000]⟩
      (bytesOf [letterA, letterB]) = some lines ∧
      (MarksTags (tagEntries [letterTags]) [letterA, letterB] lines ↔
        Separated (tagEntries [letterTags]) [letterA, letterB]) :=
  @tokens_marksTags_iff letterMap [text "color"] letterNames [letterTags] rfl letterTags_oneToOne _
    [letterA, letterB] isUtf8_letters

/-- In the name `ab` the tag `b` is not begun. -/
theorem not_marksTags_letters : OneToOne letterNames (tagEntries [letterTags]) ∧
    ∃ lines, tokens letterMap [text "color"] letterNames ⟨[97, 98, 0], [0x02000000]⟩
      (bytesOf [letterA, letterB]) = some lines ∧
      ¬ MarksTags (tagEntries [letterTags]) [letterA, letterB] lines := by
  refine ⟨letterTags_oneToOne, [⟨0, [97], 0, .begin⟩, ⟨1, [98], 2, .inside⟩], ?_, fun h => ?_⟩
  · decide +kernel
  · have hentries : tagEntries [letterTags] = [([97], 1), ([98], 2)] := rfl
    rw [hentries] at h
    obtain ⟨t, ht, hcurse, htag⟩ := h.begins [letterA] letterB [] rfl ([98], 2) (by decide) (by
      refine ⟨⟨[], rfl⟩, ?_⟩
      simp only [List.forall_mem_cons, List.not_mem_nil, false_imp_iff, implies_true, and_true]
      exact ⟨fun q hq _ => hq, fun q hq _ => hq⟩)
    simp only [List.mem_cons, List.not_mem_nil, or_false] at ht
    rcases ht with rfl | rfl
    · exact absurd hcurse (by decide)
    · cases htag

end TextMining.CrfDataNoSeg
