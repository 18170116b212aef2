import TextMining.NBClassifier.Predict

/-!
# The tags of an item

`NBPredictLine` keeps all matches of a key with names that are not too short,
but of the keys for brand and gender only the first in the text. The matches
come by their ids, so the first has to be found by its offset.
-/

namespace TextMining.NBClassifier

open AhoCorasick (Dict lastId FirstEnd)

namespace State

variable (s : State)

def pickTag (key : List UInt8) (tags : Option (OrdMap Int Nat)) (found : Int × Nat) :
    Option (OrdMap Int Nat) :=
  if (s.tagName found.1).length ≤ 2 then tags
  else
    match tags with
    | none => some (OrdMap.empty.insert found.1 found.2)
    | some tags =>
      if SingleValued key then
        if found.2 < firstOffset tags then some (OrdMap.empty.insert found.1 found.2)
        else some tags
      else some (tags.insert found.1 found.2)

variable {s}

theorem lookup_selectTag_self (key : List UInt8) (allTags : TagMap) (found : Int × Nat) :
    (s.selectTag key allTags found).lookup key = s.pickTag key (allTags.lookup key) found := by
  unfold selectTag pickTag
  split
  · rfl
  · cases htags : allTags.lookup key with
    | none => exact OrdMap.lookup_insert_self ..
    | some tags =>
      dsimp only
      split
      · split
        · exact OrdMap.lookup_insert_self ..
        · exact htags
      · exact OrdMap.lookup_insert_self ..

theorem lookup_selectTag_ne {key k : List UInt8} (hk : k ≠ key) (allTags : TagMap)
    (found : Int × Nat) : (s.selectTag key allTags found).lookup k = allTags.lookup k := by
  rw [selectTag]
  split
  · rfl
  · split
    · exact OrdMap.lookup_insert_ne hk ..
    · split
      · split
        · exact OrdMap.lookup_insert_ne hk ..
        · rfl
      · exact OrdMap.lookup_insert_ne hk ..

theorem lookup_foldl_self (key : List UInt8) (found : List (Int × Nat)) (allTags : TagMap) :
    (found.foldl (s.selectTag key) allTags).lookup key =
      found.foldl (s.pickTag key) (allTags.lookup key) := by
  induction found generalizing allTags with
  | nil => rfl
  | cons f found ih => rw [List.foldl_cons, ih, lookup_selectTag_self, List.foldl_cons]

theorem lookup_foldl_ne {key k : List UInt8} (hk : k ≠ key) (found : List (Int × Nat))
    (allTags : TagMap) : (found.foldl (s.selectTag key) allTags).lookup k = allTags.lookup k := by
  induction found generalizing allTags with
  | nil => rfl
  | cons f found ih => rw [List.foldl_cons, ih, lookup_selectTag_ne hk]

end State

-- ---------------------------------------------------------------------------
-- One key
-- ---------------------------------------------------------------------------

/-- The tags of a key that are to have one tag, whose offset is the least. -/
inductive Earliest (matched : Int → Nat → Prop) : Option (OrdMap Int Nat) → Prop
  | none : (∀ i off, ¬matched i off) → Earliest matched none
  | one {i : Int} {off : Nat} : matched i off → (∀ j k, matched j k → off ≤ k) →
      Earliest matched (some (OrdMap.empty.insert i off))

/-- The tags of a key that are to have all tags; it is not there without one. -/
structure Every (matched : Int → Nat → Prop) (tags : Option (OrdMap Int Nat)) : Prop where
  absent : tags = none ↔ ∀ i off, ¬matched i off
  lookup : ∀ i off, (∃ t, tags = some t ∧ t.lookup i = some off) ↔ matched i off

section
variable {s : State} {key : List UInt8} {matched matched' : Int → Nat → Prop}
  {tags : Option (OrdMap Int Nat)}

theorem Earliest.congr (h : Earliest matched tags)
    (hm : ∀ i off, matched i off ↔ matched' i off) : Earliest matched' tags := by
  obtain rfl : matched = matched' := funext fun i => funext fun off => propext (hm i off)
  exact h

theorem Every.congr (h : Every matched tags) (hm : ∀ i off, matched i off ↔ matched' i off) :
    Every matched' tags := by
  obtain rfl : matched = matched' := funext fun i => funext fun off => propext (hm i off)
  exact h

theorem Earliest.pickTag (h : Earliest matched tags) (hkey : SingleValued key)
    (found : Int × Nat) :
    Earliest (fun j k => matched j k ∨ (j, k) = found ∧ 2 < (s.tagName j).length)
      (s.pickTag key tags found) := by
  obtain ⟨i, off⟩ := found
  unfold State.pickTag
  split
  · rename_i hshort
    refine h.congr fun j k => (or_iff_left ?_).symm
    rintro ⟨he, hlong⟩
    cases he
    exact absurd hshort (Nat.not_le.mpr hlong)
  · rename_i hshort
    have hlong := Nat.not_le.mp hshort
    cases h with
    | none hno =>
      refine .one (.inr ⟨rfl, hlong⟩) fun j k hjk => ?_
      rcases hjk with hjk | ⟨he, -⟩
      · exact absurd hjk (hno j k)
      · cases he
        exact le_rfl
    | @one i' off' hin hmin =>
      have hfirst : State.firstOffset (OrdMap.empty.insert i' off') = off' := rfl
      simp only [hfirst]
      split
      · rename_i hlt
        refine .one (.inr ⟨rfl, hlong⟩) fun j k hjk => ?_
        rcases hjk with hjk | ⟨he, -⟩
        · exact hlt.le.trans (hmin j k hjk)
        · cases he
          exact le_rfl
      · rename_i hle
        refine .one (.inl hin) fun j k hjk => ?_
        rcases hjk with hjk | ⟨he, -⟩
        · exact hmin j k hjk
        · cases he
          exact Nat.not_lt.mp hle

theorem Earliest.foldl (h : Earliest matched tags) (hkey : SingleValued key)
    (found : List (Int × Nat)) :
    Earliest (fun j k => matched j k ∨ (j, k) ∈ found ∧ 2 < (s.tagName j).length)
      (found.foldl (s.pickTag key) tags) := by
  induction found generalizing matched tags with
  | nil => exact h.congr fun j k => (or_iff_left fun hin => List.not_mem_nil hin.1).symm
  | cons f found ih =>
    refine (ih (h.pickTag hkey f)).congr fun j k => ?_
    rw [or_assoc, List.mem_cons, or_and_right]

theorem Every.pickTag (h : Every matched tags) (hkey : ¬SingleValued key) {found : Int × Nat}
    (hnew : ∀ k, ¬matched found.1 k) :
    Every (fun j k => matched j k ∨ (j, k) = found ∧ 2 < (s.tagName j).length)
      (s.pickTag key tags found) := by
  obtain ⟨i, off⟩ := found
  unfold State.pickTag
  split
  · rename_i hshort
    refine h.congr fun j k => (or_iff_left ?_).symm
    rintro ⟨he, hlong⟩
    cases he
    exact absurd hshort (Nat.not_le.mpr hlong)
  · rename_i hshort
    have hlong := Nat.not_le.mp hshort
    -- what the key has afterwards, given what it had
    have hins : ∀ t : OrdMap Int Nat, (∀ j k, t.lookup j = some k ↔ matched j k) →
        Every (fun j k => matched j k ∨ (j, k) = (i, off) ∧ 2 < (s.tagName j).length)
          (some (t.insert i off)) := by
      intro t ht
      refine ⟨iff_of_false (fun he => by cases he) fun hno => hno i off (.inr ⟨rfl, hlong⟩),
        fun j k => ?_⟩
      simp only [Option.some_inj, exists_eq_left', OrdMap.lookup_insert]
      split
      · rename_i hj
        subst hj
        rw [or_iff_right (hnew k), Prod.mk_right_inj, and_iff_left hlong, Option.some_inj, eq_comm]
      · rename_i hj
        rw [ht, or_iff_left fun he => hj (congrArg Prod.fst he.1)]
    cases tags with
    | none =>
      refine hins .empty fun j k => ?_
      rw [OrdMap.lookup_empty]
      exact iff_of_false (fun he => by cases he) (h.absent.mp rfl j k)
    | some t =>
      refine hins t fun j k => ?_
      rw [← h.lookup]
      simp only [Option.some_inj, exists_eq_left']

theorem Every.foldl (h : Every matched tags) (hkey : ¬SingleValued key) {found : List (Int × Nat)}
    (hids : (found.map Prod.fst).Nodup) (hnew : ∀ f ∈ found, ∀ k, ¬matched f.1 k) :
    Every (fun j k => matched j k ∨ (j, k) ∈ found ∧ 2 < (s.tagName j).length)
      (found.foldl (s.pickTag key) tags) := by
  induction found generalizing matched tags with
  | nil => exact h.congr fun j k => (or_iff_left fun hin => List.not_mem_nil hin.1).symm
  | cons f found ih =>
    rw [List.map_cons, List.nodup_cons] at hids
    have hstep := h.pickTag (s := s) hkey (hnew f List.mem_cons_self)
    refine (ih hstep hids.2 fun g hg k hk => ?_).congr fun j k => ?_
    · rcases hk with hk | ⟨he, -⟩
      · exact hnew g (List.mem_cons_of_mem f hg) k hk
      · refine hids.1 (List.mem_map.mpr ⟨g, hg, ?_⟩)
        exact (Prod.mk.inj he).1
    · rw [or_assoc, List.mem_cons, or_and_right]

end

-- ---------------------------------------------------------------------------
-- All keys
-- ---------------------------------------------------------------------------

/-- The automata of a class are built from these words, whose ids are the
entries of `TagNameMap`, so that no two words of a key share one. -/
structure Tagged (s : State) (node : ClassNode) (dicts : OrdMap (List UInt8) Dict) : Prop where
  built : ∀ key, node.tagMapAC.lookup key =
    (dicts.lookup key).bind fun dict => (AhoCorasick.clear.insertAll dict).buildAutomata
  named : ∀ key dict w i, dicts.lookup key = some dict → lastId dict w = some i →
    i ≠ AhoCorasick.None ∧ s.tagName i = w

/-- A tag of the key that the text has, with a name of more than 2 bytes, and
the last byte of its first occurrence. -/
def Matched (dicts : OrdMap (List UInt8) Dict) (key str : List UInt8) (i : Int) (off : Nat) : Prop :=
  ∃ dict w, dicts.lookup key = some dict ∧ lastId dict w = some i ∧ 2 < w.length ∧
    FirstEnd w str off

/-- What is kept for each key but those of keywords. -/
structure Selected (dicts : OrdMap (List UInt8) Dict) (str : List UInt8) (allTags : TagMap) :
    Prop where
  single : ∀ key, ¬text "eyword" <:+: key → SingleValued key →
    Earliest (Matched dicts key str) (allTags.lookup key)
  other : ∀ key, ¬text "eyword" <:+: key → ¬SingleValued key →
    Every (Matched dicts key str) (allTags.lookup key)

section
variable {s : State} {node : ClassNode} {dicts : OrdMap (List UInt8) Dict} {str : List UInt8}

theorem Tagged.getMatchOff (h : Tagged s node dicts) (str : List UInt8) {key : List UInt8}
    {ac : AhoCorasick} (hac : node.tagMapAC.lookup key = some ac) :
    ∃ R, ac.getMatchOff str = some R ∧ ∀ i off,
      (i, off) ∈ R.pairs ∧ 2 < (s.tagName i).length ↔ Matched dicts key str i off := by
  rw [h.built] at hac
  obtain ⟨dict, hdict, hbuild⟩ := Option.bind_eq_some_iff.mp hac
  obtain ⟨htrie, -, -⟩ := AhoCorasick.insertAll_spec AhoCorasick.trie_clear dict
  obtain ⟨B, R, hB, hR, hpairs⟩ := AhoCorasick.getMatchOff_build htrie str
  cases hbuild.symm.trans hB
  refine ⟨R, hR, fun i off => ?_⟩
  have hends : ∀ k w, lastId dict w = some i → 2 < w.length →
      ((AhoCorasick.clear.insertAll dict).EndsIn (str.take (k + 1)) i ↔
        w <:+ str.take (k + 1)) := by
    intro k w hl hlong
    obtain ⟨hi, hw⟩ := h.named key dict w i hdict hl
    rw [AhoCorasick.endsIn_dict, and_iff_right hi]
    constructor
    · rintro ⟨w', -, hl', hsuf⟩
      rwa [← hw, (h.named key dict w' i hdict hl').2]
    · refine fun hsuf => ⟨w, ?_, hl, hsuf⟩
      rintro rfl
      cases hlong
  rw [hpairs]
  constructor
  · rintro ⟨⟨hlt, hend, hfirst⟩, hlong⟩
    obtain ⟨-, w, -, hl, hsuf⟩ := AhoCorasick.endsIn_dict.mp hend
    rw [(h.named key dict w i hdict hl).2] at hlong
    exact ⟨dict, w, hdict, hl, hlong, hlt, hsuf, fun k hk => mt (hends k w hl hlong).mpr (hfirst k hk)⟩
  · rintro ⟨dict', w, hdict', hl, hlong, hlt, hsuf, hfirst⟩
    cases hdict.symm.trans hdict'
    rw [(h.named key dict w i hdict hl).2]
    exact ⟨⟨hlt, (hends off w hl hlong).mpr hsuf, fun k hk => mt (hends k w hl hlong).mp (hfirst k hk)⟩,
      hlong⟩

theorem selectTags_loop (str : List UInt8) (es : List (List UInt8 × AhoCorasick))
    (hkeys : (es.map Prod.fst).Nodup) (hends : ∀ e ∈ es, ∃ R, e.2.getMatchOff str = some R)
    (allTags : TagMap) :
    ∃ out, es.foldlM (fun allTags e =>
        if text "eyword" <:+: e.1 then some allTags
        else (e.2.getMatchOff str).map fun found => found.pairs.foldl (s.selectTag e.1) allTags)
        allTags = some out ∧
      (∀ key, key ∉ es.map Prod.fst → out.lookup key = allTags.lookup key) ∧
      ∀ e ∈ es, ¬text "eyword" <:+: e.1 → ∃ R, e.2.getMatchOff str = some R ∧
        out.lookup e.1 = R.pairs.foldl (s.pickTag e.1) (allTags.lookup e.1) := by
  induction es generalizing allTags with
  | nil => exact ⟨allTags, rfl, fun _ _ => rfl, fun e he => by cases he⟩
  | cons e es ih =>
    rw [List.map_cons, List.nodup_cons] at hkeys
    obtain ⟨R, hR⟩ := hends e List.mem_cons_self
    -- the map behind the first automaton
    obtain ⟨next, hnext, hother, hself⟩ : ∃ next : TagMap,
        (if text "eyword" <:+: e.1 then some allTags
          else (e.2.getMatchOff str).map fun found => found.pairs.foldl (s.selectTag e.1) allTags) =
          some next ∧
        (∀ key, key ≠ e.1 → next.lookup key = allTags.lookup key) ∧
        (¬text "eyword" <:+: e.1 →
          next.lookup e.1 = R.pairs.foldl (s.pickTag e.1) (allTags.lookup e.1)) := by
      split
      · rename_i hword
        exact ⟨allTags, rfl, fun _ _ => rfl, fun h => absurd hword h⟩
      · rw [hR]
        exact ⟨_, rfl, fun key hk => State.lookup_foldl_ne hk _ _,
          fun _ => State.lookup_foldl_self _ _ _⟩
    obtain ⟨out, hout, hsame, hall⟩ := ih hkeys.2
      (fun e' he' => hends e' (List.mem_cons_of_mem e he')) next
    refine ⟨out, ?_, fun key hk => ?_, fun e' he' hword => ?_⟩
    · rw [List.foldlM_cons, hnext]
      exact hout
    · rw [List.map_cons, List.mem_cons, not_or] at hk
      exact (hsame key hk.2).trans (hother key hk.1)
    · rcases List.mem_cons.mp he' with rfl | he'
      · exact ⟨R, hR, (hsame e'.1 hkeys.1).trans (hself hword)⟩
      · obtain ⟨R', hR', hl⟩ := hall e' he' hword
        have hne : e'.1 ≠ e.1 := fun he => hkeys.1 (he ▸ List.mem_map_of_mem he')
        exact ⟨R', hR', by rw [hl, hother e'.1 hne]⟩

/-- A key for brand or gender keeps the tag that the text has first, any other
all that it has. -/
theorem selectTags_selected (h : Tagged s node dicts) (str : List UInt8) :
    ∃ allTags, s.selectTags node str = some allTags ∧ Selected dicts str allTags := by
  have hends : ∀ e ∈ node.tagMapAC.entries, ∃ R, e.2.getMatchOff str = some R := fun e he => by
    obtain ⟨R, hR, -⟩ := h.getMatchOff str (OrdMap.mem_entries.mp he)
    exact ⟨R, hR⟩
  obtain ⟨allTags, hrun, habsent, hkeys⟩ := selectTags_loop (s := s) str node.tagMapAC.entries
    node.tagMapAC.nodup_keys hends .empty
  refine ⟨allTags, hrun, ?_⟩
  -- a key without an automaton has no tags
  have hnone : ∀ key, node.tagMapAC.lookup key = none →
      allTags.lookup key = none ∧ ∀ i off, ¬Matched dicts key str i off := by
    intro key hkey
    refine ⟨(habsent key (OrdMap.lookup_eq_none.mp hkey)).trans (OrdMap.lookup_empty key), ?_⟩
    rintro i off ⟨dict, w, hdict, -⟩
    obtain ⟨htrie, -, -⟩ := AhoCorasick.insertAll_spec AhoCorasick.trie_clear dict
    obtain ⟨B, -, hB, -⟩ := AhoCorasick.getMatchOff_build htrie str
    rw [h.built, hdict, Option.bind_some, hB] at hkey
    cases hkey
  have hsome : ∀ key ac, ¬text "eyword" <:+: key → node.tagMapAC.lookup key = some ac →
      ∃ R : AhoCorasick.OffSet, allTags.lookup key = R.pairs.foldl (s.pickTag key) none ∧
        ∀ i off, (i, off) ∈ R.pairs ∧ 2 < (s.tagName i).length ↔ Matched dicts key str i off := by
    intro key ac hword hac
    obtain ⟨R, hR, hl⟩ := hkeys (key, ac) (OrdMap.mem_entries.mpr hac) hword
    obtain ⟨R', hR', hmatched⟩ := h.getMatchOff str hac
    cases hR.symm.trans hR'
    exact ⟨R, hl, hmatched⟩
  constructor
  · intro key hword hsingle
    cases hac : node.tagMapAC.lookup key with
    | none =>
      rw [(hnone key hac).1]
      exact .none (hnone key hac).2
    | some ac =>
      obtain ⟨R, hl, hmatched⟩ := hsome key ac hword hac
      have hstart : Earliest (fun _ _ => False) none := .none fun _ _ hno => hno
      rw [hl]
      refine (hstart.foldl (s := s) hsingle R.pairs).congr fun i off => ?_
      rw [false_or, hmatched]
  · intro key hword hsingle
    cases hac : node.tagMapAC.lookup key with
    | none =>
      rw [(hnone key hac).1]
      refine ⟨iff_of_true rfl (hnone key hac).2, fun i off => iff_of_false ?_ ((hnone key hac).2 i off)⟩
      rintro ⟨t, ht, -⟩
      cases ht
    | some ac =>
      obtain ⟨R, hl, hmatched⟩ := hsome key ac hword hac
      have hstart : Every (fun _ _ => False) none := by
        refine ⟨iff_of_true rfl fun _ _ hno => hno, fun i off => iff_of_false ?_ fun hno => hno⟩
        rintro ⟨t, ht, -⟩
        cases ht
      have hids : (R.pairs.map Prod.fst).Nodup := (AhoCorasick.pairwise_pairs R).imp ne_of_gt
      rw [hl]
      refine (hstart.foldl (s := s) hsingle hids fun _ _ _ hno => hno).congr fun i off => ?_
      rw [false_or, hmatched]

end

/-- Two brands, the smaller id behind the greater in the text. -/
theorem selectTags_selected_brands :
    let dict : Dict := [(text "nike", 5), (text "puma", 2)]
    let s := { State.init with
      tagNameMap := (OrdMap.empty.insert 5 (text "nike")).insert 2 (text "puma") }
    let node := { ClassNode.new 1 1 0 0 with
      tagMapAC := OrdMap.empty.insert brandWord
        ((AhoCorasick.clear.insertAll dict).buildAutomata.getD .clear) }
    ∃ allTags, s.selectTags node (text "nike or puma") = some allTags ∧
      Selected (OrdMap.empty.insert brandWord dict) (text "nike or puma") allTags := by
  intro dict s node
  refine selectTags_selected ⟨fun key => ?_, fun key dict' w i hdict hl => ?_⟩ _
  · obtain ⟨htrie, -, -⟩ := AhoCorasick.insertAll_spec AhoCorasick.trie_clear dict
    obtain ⟨B, -, hB, -⟩ := AhoCorasick.getMatchOff_build htrie []
    simp only [node, OrdMap.lookup_insert, OrdMap.lookup_empty]
    split
    · rw [hB, Option.bind_some, hB, Option.getD_some]
    · rfl
  · rw [OrdMap.lookup_insert, OrdMap.lookup_empty] at hdict
    split at hdict
    · cases hdict
      rcases List.mem_cons.mp (AhoCorasick.lastId_mem hl) with he | he
      · cases he
        exact ⟨by decide, by decide +kernel⟩
      · cases List.mem_singleton.mp he
        exact ⟨by decide, by decide +kernel⟩
    · cases hdict

end TextMining.NBClassifier
