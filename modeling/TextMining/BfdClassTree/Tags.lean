import TextMining.AhoCorasick.Match
import TextMining.BfdClassTree.ClassTree

/-!
# Tags of a class and of the classes below it

After `LoadTags` the automaton of a key at a class has the rows of that key
whose class is the class itself or a descendant, in the order of the file.
-/

namespace TextMining.BfdClassTree

open AhoCorasick (Dict clear lastId)
open Forest (Links linksOf path)

-- ---------------------------------------------------------------------------
-- The loaded classes
-- ---------------------------------------------------------------------------

structure Rooted (links : Links Int32) (size : Nat) (depth : Int32 → Nat) : Prop where
  tree : Forest.Tree 0 links size depth
  positive : ∀ c l, links c = some l → (above c = true ↔ c ≠ 0)
  top : ∀ l, links 0 = some l → above l.1 = false

section
variable {links : Links Int32} {size : Nat} {depth : Int32 → Nat} (h : Rooted links size depth)
include h

theorem Rooted.mem_path {c d : Int32} {l : Int32 × List Int32} (hl : links d = some l) :
    c ∈ path above links size d ↔
      c ≠ 0 ∧ Relation.ReflTransGen (Forest.Father 0 links) d c :=
  h.tree.mem_path h.positive ⟨l, hl⟩ (h.tree.bound d l hl)

theorem Rooted.path_top {l : Int32 × List Int32} (hl : links 0 = some l) :
    path above links size l.1 = [] := by
  cases size with
  | zero => rfl
  | succ size => rw [path, h.top l hl, if_neg Bool.false_ne_true]

theorem Rooted.mem_path_father {c d : Int32} {l : Int32 × List Int32} (hl : links d = some l)
    (hc : c ≠ 0) : c ∈ path above links size d ↔ c = d ∨ c ∈ path above links size l.1 := by
  rw [h.mem_path hl, and_iff_right hc, Relation.ReflTransGen.cases_head_iff, eq_comm (a := d)]
  refine or_congr_right ?_
  cases decEq d 0 with
  | isTrue hd =>
    subst hd
    rw [h.path_top hl]
    refine iff_of_false ?_ List.not_mem_nil
    rintro ⟨f, ⟨hne, -⟩, -⟩
    exact hne rfl
  | isFalse hd =>
    obtain ⟨⟨lf, hf⟩, -⟩ := h.tree.father d l.1 l.2 hl hd
    rw [h.mem_path hf, and_iff_right hc]
    constructor
    · rintro ⟨f, ⟨-, ss, hl'⟩, hrest⟩
      cases hl.symm.trans hl'
      exact hrest
    · exact fun hrest => ⟨l.1, ⟨hd, l.2, hl⟩, hrest⟩

theorem Rooted.not_mem_path {d : Int32} {l : Int32 × List Int32} (hl : links d = some l) :
    d ∉ path above links size l.1 := by
  intro hmem
  cases decEq d 0 with
  | isTrue hd =>
    subst hd
    rw [h.path_top hl] at hmem
    cases hmem
  | isFalse hd =>
    obtain ⟨-, hdepth⟩ := h.tree.father d l.1 l.2 hl hd
    have hle := h.tree.depth_le rfl hmem
    omega

end

-- ---------------------------------------------------------------------------
-- One row
-- ---------------------------------------------------------------------------

def TagRow.word (row : TagRow) : List UInt8 × Int := (cstr row.tag, row.tagId.toInt)

def automaton (dict : Dict) : Option AhoCorasick :=
  if dict = [] then none else some (clear.insertAll dict)

def withWord (row : TagRow) (ac : Option AhoCorasick) : Option AhoCorasick :=
  some ((ac.getD clear).insert row.word.1 row.word.2)

theorem automaton_concat (dict : Dict) (row : TagRow) :
    automaton (dict ++ [row.word]) = withWord row (automaton dict) := by
  rw [automaton, if_neg (List.append_ne_nil_of_right_ne_nil _ (List.cons_ne_nil _ _)),
    AhoCorasick.insertAll, List.foldl_append, withWord, automaton]
  split
  · rename_i hd
    rw [hd]
    rfl
  · rfl

theorem addTag_link (row : TagRow) (n : ClassNode) : (n.addTag row).link = n.link := by
  rw [ClassNode.addTag]
  split <;> rfl

theorem addTag_lookup (row : TagRow) {n : ClassNode} (hn : n.hashTags = .empty)
    (key : List UInt8) : (n.addTag row).hashTags = .empty ∧
      (n.addTag row).tagMapAC.lookup key =
        if key = row.key then withWord row (n.tagMapAC.lookup key) else n.tagMapAC.lookup key := by
  have hnew : row.tagId ∉ n.hashTags := by
    rw [hn]
    exact List.not_mem_nil
  rw [ClassNode.addTag, if_neg hnew]
  refine ⟨hn, ?_⟩
  rw [OrdMap.lookup_modify, OrdMap.lookup_insertNew, OrdMap.lookup_insertNew, if_pos rfl]
  split
  · rename_i hk
    rw [hk, withWord]
    cases n.tagMapAC.lookup row.key with
    | none => rfl
    | some ac => rfl
  · rw [Option.or_none]

theorem trie_getD {ac : Option AhoCorasick} (h : ∀ a, ac = some a → a.Trie) :
    (ac.getD clear).Trie := by
  cases ac with
  | none => exact AhoCorasick.trie_clear
  | some a => exact h a rfl

def reaches (links : Links Int32) (size : Nat) (c : Int32) (key : List UInt8) (row : TagRow) : Bool :=
  decide (row.key = key) && decide (c ∈ path above links size row.classId)

structure Loading (links : Links Int32) (size : Nat) (m : ClassMap) (rows : List TagRow) : Prop where
  sameLinks : linksOf ClassNode.link m = links
  sameSize : m.size = size
  hash : ∀ c n, m.lookup c = some n → n.hashTags = .empty
  tries : ∀ c n, m.lookup c = some n → ∀ key ac, n.tagMapAC.lookup key = some ac → ac.Trie
  tags : ∀ c n, c ≠ 0 → m.lookup c = some n → ∀ key, n.tagMapAC.lookup key =
    automaton ((rows.filter (reaches links size c key)).map TagRow.word)

section
variable {links : Links Int32} {size : Nat} {depth : Int32 → Nat} {s : State} {m : ClassMap}
  {rows : List TagRow}

theorem Loading.changed (hl : Loading links size m rows) (h : Rooted links size depth)
    {row : TagRow} {l : Int32 × List Int32} (hrow : links row.classId = some l) {m' : ClassMap}
    (hm : ∀ c, m'.lookup c =
      if c = row.classId ∨ c ∈ path above links size l.1 then (m.lookup c).map (ClassNode.addTag row)
      else m.lookup c) : Loading links size m' (rows ++ [row]) := by
  refine ⟨?_, ?_, fun c n hn => ?_, fun c n hn key ac hac => ?_, fun c n hc hn key => ?_⟩
  · rw [← hl.sameLinks]
    funext c
    rw [linksOf, hm, linksOf]
    split
    · rw [Option.map_map]
      exact congrArg (Option.map · _) (funext (addTag_link row))
    · rfl
  · rw [← hl.sameSize]
    refine OrdMap.size_congr (OrdMap.mem_of_lookup_map (f := ClassNode.addTag row) fun c => ?_)
    rw [hm]
    split
    · exact .inr rfl
    · exact .inl rfl
  · rw [hm] at hn
    split at hn
    · obtain ⟨n, hold, rfl⟩ := Option.map_eq_some_iff.mp hn
      exact (addTag_lookup row (hl.hash c n hold) row.key).1
    · exact hl.hash c n hn
  · rw [hm] at hn
    split at hn
    · obtain ⟨n, hold, rfl⟩ := Option.map_eq_some_iff.mp hn
      rw [(addTag_lookup row (hl.hash c n hold) key).2] at hac
      split at hac
      · cases hac
        exact (AhoCorasick.insert_spec (trie_getD (hl.tries c n hold key)) _ _).1
      · exact hl.tries c n hold key ac hac
    · exact hl.tries c n hn key ac hac
  · have hreach : reaches links size c key row = true ↔
        row.key = key ∧ (c = row.classId ∨ c ∈ path above links size l.1) := by
      rw [reaches, Bool.and_eq_true, decide_eq_true_eq, decide_eq_true_eq,
        h.mem_path_father hrow hc]
    have hdict : ((rows ++ [row]).filter (reaches links size c key)).map TagRow.word =
        (rows.filter (reaches links size c key)).map TagRow.word ++
          if reaches links size c key row then [row.word] else [] := by
      rw [List.filter_append, List.map_append, List.filter_singleton]
      cases reaches links size c key row <;> rfl
    rw [hm] at hn
    rw [hdict]
    split at hn
    · rename_i hin
      obtain ⟨n, hold, rfl⟩ := Option.map_eq_some_iff.mp hn
      rw [(addTag_lookup row (hl.hash c n hold) key).2, hl.tags c n hc hold]
      split
      · rename_i hk
        rw [if_pos (hreach.mpr ⟨hk.symm, hin⟩), automaton_concat]
      · rename_i hk
        rw [if_neg fun hr => hk (hreach.mp hr).1.symm, List.append_nil]
    · rename_i hout
      rw [if_neg fun hr => hout (hreach.mp hr).2, List.append_nil]
      exact hl.tags c n hc hn key

theorem Loading.loadTag (h : Rooted links size depth) (hl : Loading links size s.classNodeMap rows)
    (row : TagRow) :
    ∃ s', s.loadTag row = some s' ∧ Loading links size s'.classNodeMap (rows ++ [row]) := by
  rw [State.loadTag]
  cases hrow : s.classNodeMap.lookup row.classId with
  | none =>
    refine ⟨s, rfl, hl.sameLinks, hl.sameSize, hl.hash, hl.tries, fun c n hc hn key => ?_⟩
    have hnone : links row.classId = none := by
      rw [← hl.sameLinks, linksOf, hrow, Option.map_none]
    have hnot : reaches links size c key row = false := by
      rw [reaches, Bool.and_eq_false_iff]
      refine .inr (decide_eq_false fun hmem => ?_)
      rw [Forest.eq_of_mem_path hnone hmem, hrow] at hn
      cases hn
    rw [hl.tags c n hc hn key, List.filter_append, List.filter_cons_of_neg (by simp [hnot]),
      List.filter_nil, List.append_nil]
  | some n =>
    have hlink : links row.classId = some n.link := by
      rw [← hl.sameLinks, linksOf, hrow, Option.map_some]
    have hfirst : linksOf ClassNode.link (s.classNodeMap.insert row.classId (n.addTag row)) =
        links := (Forest.linksOf_insert hrow (addTag_link row n)).trans hl.sameLinks
    have hkeys : ∀ c, c ∈ s.classNodeMap.insert row.classId (n.addTag row) ↔ c ∈ s.classNodeMap :=
      fun c => by
        rw [OrdMap.mem_insert, or_iff_right_iff_imp]
        rintro rfl
        exact OrdMap.mem_iff.mpr ⟨n, hrow⟩
    have hfather : above n.fatherId = true → n.fatherId ∈ s.classNodeMap.insert row.classId
        (n.addTag row) ∧ depth n.fatherId < size := by
      intro hgo
      have hne : row.classId ≠ 0 := by
        intro h0
        rw [h0] at hlink
        exact Bool.false_ne_true ((h.top n.link hlink).symm.trans hgo)
      obtain ⟨⟨l, hf⟩, -⟩ := h.tree.father _ _ _ hlink hne
      exact ⟨Forest.linksOf_isSome.mp ⟨l, by rw [hfirst]; exact hf⟩, h.tree.bound _ l hf⟩
    obtain ⟨m, hm, hlookup⟩ := Forest.Tree.climb (hfirst.symm ▸ h.tree) rfl (addTag_link row) hfather
    rw [hfirst] at hlookup
    dsimp only
    rw [OrdMap.size_congr hkeys, hl.sameSize, hm, Option.map_some]
    refine ⟨_, rfl, hl.changed h hlink fun c => ?_⟩
    rw [hlookup, OrdMap.lookup_insert]
    cases decEq c row.classId with
    | isTrue hc =>
      have hnot : row.classId ∉ path above links size n.fatherId := h.not_mem_path hlink
      rw [hc, if_neg hnot, if_pos rfl, if_pos (.inl rfl), hrow, Option.map_some]
    | isFalse hc =>
      rw [if_neg hc]
      simp only [hc, false_or]
      rfl

theorem Loading.run (h : Rooted links size depth) (hl : Loading links size s.classNodeMap rows)
    (more : List TagRow) :
    ∃ s', more.foldlM State.loadTag s = some s' ∧
      Loading links size s'.classNodeMap (rows ++ more) := by
  induction more generalizing s rows with
  | nil => exact ⟨s, rfl, by rwa [List.append_nil]⟩
  | cons row more ih =>
    obtain ⟨next, hnext, hloading⟩ := hl.loadTag h row
    obtain ⟨s', hs', hend⟩ := ih hloading
    refine ⟨s', ?_, by rwa [List.append_cons]⟩
    rw [List.foldlM_cons, hnext]
    exact hs'

theorem build_spec {n : ClassNode}
    (h : ∀ key ac, n.tagMapAC.lookup key = some ac → ac.Trie) :
    ∃ n', n.build = some n' ∧ ∀ key, n'.tagMapAC.lookup key =
      (n.tagMapAC.lookup key).bind AhoCorasick.buildAutomata := by
  obtain ⟨tags, htags, hlookup⟩ := OrdMap.updateAll_spec (m := n.tagMapAC)
    (f := AhoCorasick.buildAutomata) fun key ac hac => by
      obtain ⟨B, hB, -⟩ := AhoCorasick.buildAutomata_spec (h key ac hac)
      exact ⟨B, hB⟩
  exact ⟨_, by rw [ClassNode.build, htags, Option.map_some], hlookup⟩

/-- The built automaton of some rows finds the last ids of their words. -/
theorem matched_iff {rows : List TagRow}
    (hwords : ∀ row ∈ rows, row.word.1 ≠ [] ∧ row.word.2 ≠ AhoCorasick.None) (p : TagRow → Bool)
    (text : List UInt8) :
    ∃ S, matchTags ((automaton ((rows.filter p).map TagRow.word)).bind
        AhoCorasick.buildAutomata) text = some S ∧
      ∀ i, i ∈ S ↔ ∃ w, lastId ((rows.filter p).map TagRow.word) w = some i ∧ w <:+: text := by
  have hdict : ∀ e ∈ (rows.filter p).map TagRow.word, e.1 ≠ [] ∧ e.2 ≠ AhoCorasick.None := by
    rintro e he
    obtain ⟨row, hrow, rfl⟩ := List.mem_map.mp he
    exact hwords row (List.mem_filter.mp hrow).1
  generalize (rows.filter p).map TagRow.word = dict at hdict
  cases dict with
  | nil =>
    refine ⟨OrdSet.empty, rfl, fun i => iff_of_false (OrdSet.not_mem_empty i) ?_⟩
    rintro ⟨w, hw, -⟩
    cases hw
  | cons e dict =>
    obtain ⟨htrie, -, -⟩ := AhoCorasick.insertAll_spec AhoCorasick.trie_clear (e :: dict)
    obtain ⟨A, S, hA, hS, hmem⟩ := AhoCorasick.getMatch_build htrie text
    refine ⟨S, ?_, fun i => (hmem i).trans (AhoCorasick.stored_iff hdict)⟩
    rw [automaton, if_neg (List.cons_ne_nil e dict), Option.bind_some, hA]
    exact hS

theorem Loading.tagMatch (h : Rooted links size depth) (hl : Loading links size s.classNodeMap [])
    (lines : List TagLine)
    (hwords : ∀ row ∈ lines.filterMap TagLine.row,
      row.word.1 ≠ [] ∧ row.word.2 ≠ AhoCorasick.None)
    {c : Int32} (hc : c ≠ 0) (hmem : c ∈ s.classNodeMap) (key text : List UInt8) :
    ∃ s' S, s.loadTags lines = some s' ∧ s'.tagMatch c key text = some S ∧ ∀ i, i ∈ S ↔
      ∃ w, lastId (((lines.filterMap TagLine.row).filter (reaches links size c key)).map TagRow.word) w =
        some i ∧ w <:+: text := by
  obtain ⟨loaded, hloaded, hend⟩ := hl.run h (lines.filterMap TagLine.row)
  obtain ⟨m, hm, hlookup⟩ := OrdMap.updateAll_spec (m := loaded.classNodeMap)
    (f := ClassNode.build) fun c n hn => by
      obtain ⟨n', hn', -⟩ := build_spec (hend.tries c n hn)
      exact ⟨n', hn'⟩
  have hmem' : c ∈ loaded.classNodeMap :=
    (Forest.mem_of_linksOf (hend.sameLinks.trans hl.sameLinks.symm)).mpr hmem
  obtain ⟨n, hn⟩ := OrdMap.mem_iff.mp hmem'
  obtain ⟨n', hn', htags⟩ := build_spec (hend.tries c n hn)
  have hfinal : m.lookup c = some n' := by rw [hlookup, hn, Option.bind_some, hn']
  obtain ⟨S, hS, hfound⟩ := matched_iff hwords (reaches links size c key) text
  refine ⟨{ loaded with classNodeMap := m }, S, ?_, ?_, hfound⟩
  · rw [State.loadTags, hloaded]
    simp only [Option.bind_eq_bind, Option.bind_some, hm]
  · rw [State.tagMatch, hfinal, Option.bind_some, htags, hend.tags c n hc hn, List.nil_append]
    exact hS

end

-- ---------------------------------------------------------------------------
-- The loaded tree
-- ---------------------------------------------------------------------------

def Concerns (m : ClassMap) (c : Int32) (key : List UInt8) (row : TagRow) : Prop :=
  row.key = key ∧ Relation.ReflTransGen (Forest.Father 0 (linksOf ClassNode.link m)) row.classId c

section
variable {m : ClassMap} {s : State}

theorem above_iff {c : Int32} : above c = true ↔ 0 < c := decide_eq_true_iff

theorem Fresh.rooted (h : Fresh m) (hpos : ∀ c ∈ m, c ≠ 0 → 0 < c) :
    ∃ depth, Rooted (linksOf ClassNode.link m) m.size depth := by
  obtain ⟨depth, htree⟩ := h.tree
  refine ⟨depth, htree, fun c l hl => ?_, fun l hl => ?_⟩
  · rw [above_iff]
    constructor
    · rintro hlt rfl
      exact absurd hlt (by decide)
    · exact hpos c (Forest.linksOf_isSome.mp ⟨l, hl⟩)
  · obtain ⟨n, hn, rfl⟩ := Option.map_eq_some_iff.mp hl
    rw [ClassNode.link, h.top n hn]
    rfl

theorem Fresh.loading (h : Fresh m) : Loading (linksOf ClassNode.link m) m.size m [] where
  sameLinks := rfl
  sameSize := rfl
  hash c n hn := (h.bare c n hn).1
  tries c n hn key ac hac := by
    rw [(h.bare c n hn).2] at hac
    cases hac
  tags c n _ hn key := by
    rw [(h.bare c n hn).2]
    rfl

theorem reaches_iff {depth : Int32 → Nat} (h : Rooted (linksOf ClassNode.link m) m.size depth)
    {c : Int32} (hc : c ≠ 0) (hmem : c ∈ m) {key : List UInt8} {row : TagRow} :
    reaches (linksOf ClassNode.link m) m.size c key row = true ↔ Concerns m c key row := by
  rw [reaches, Bool.and_eq_true, decide_eq_true_eq, decide_eq_true_eq, Concerns]
  refine and_congr_right fun _ => ?_
  cases hrow : linksOf ClassNode.link m row.classId with
  | some l => rw [h.mem_path hrow, and_iff_right hc]
  | none =>
    have hne : c ≠ row.classId := by
      rintro rfl
      obtain ⟨l, hl⟩ := Forest.linksOf_isSome.mpr hmem
      rw [hrow] at hl
      cases hl
    refine iff_of_false (fun hpath => hne (Forest.eq_of_mem_path hrow hpath)) ?_
    · rw [Relation.ReflTransGen.cases_head_iff]
      rintro (he | ⟨f, ⟨-, ss, hl⟩, -⟩)
      · exact hne he.symm
      · rw [hrow] at hl
        cases hl

/-- The tags found with the automaton of a key at a class are those of the
rows of the class and of its descendants. -/
theorem tags_reach (env : NBClassifier.Env) (tree : List NBClassifier.TreeLine)
    (lines : List TagLine) (hs : loadClassTree env tree = some s)
    (hpos : ∀ c ∈ s.classNodeMap, c ≠ 0 → 0 < c)
    (htags : ∀ row ∈ lines.filterMap TagLine.row, row.tag ≠ [] ∧ 0 ∉ row.tag ∧ row.tagId ≠ -1)
    {c : Int32} (hc : 0 < c) (hmem : c ∈ s.classNodeMap) (key text : List UInt8) :
    ∃ s' S, s.loadTags lines = some s' ∧ s'.tagMatch c key text = some S ∧ ∀ i, i ∈ S ↔
      ∃ before row after, lines.filterMap TagLine.row = before ++ row :: after ∧
        Concerns s.classNodeMap c key row ∧ row.tagId.toInt = i ∧ row.tag <:+: text ∧
        ∀ later ∈ after, Concerns s.classNodeMap c key later → later.tag ≠ row.tag := by
  obtain ⟨fresh, hs', hfresh⟩ := loadClassTree_fresh env tree
  obtain rfl : fresh = s := Option.some.inj (hs'.symm.trans hs)
  obtain ⟨depth, hrooted⟩ := hfresh.rooted hpos
  have hne : c ≠ 0 := by
    rintro rfl
    exact absurd hc (by decide)
  -- the words inserted are the tags themselves
  have hword : ∀ row ∈ lines.filterMap TagLine.row, row.word = (row.tag, row.tagId.toInt) :=
    fun row hrow => by rw [TagRow.word, cstr_of_ne_zero fun b hb he => (htags row hrow).2.1 (he ▸ hb)]
  have hwords : ∀ row ∈ lines.filterMap TagLine.row,
      row.word.1 ≠ [] ∧ row.word.2 ≠ AhoCorasick.None := by
    intro row hrow
    obtain ⟨htag, -, hid⟩ := htags row hrow
    rw [hword row hrow]
    refine ⟨htag, fun he => hid (Int32.toInt_inj.mp he)⟩
  obtain ⟨s', S, hload, hmatch, hfound⟩ :=
    hfresh.loading.tagMatch hrooted lines hwords hne hmem key text
  refine ⟨s', S, hload, hmatch, fun i => (hfound i).trans ?_⟩
  constructor
  · rintro ⟨w, hlast, htext⟩
    obtain ⟨before, row, after, hl, hreach, he, hlater⟩ :=
      (AhoCorasick.lastId_filter_map _ _ _).mp hlast
    have hin : ∀ r ∈ row :: after, r ∈ lines.filterMap TagLine.row := fun r hr =>
      hl ▸ List.mem_append_right before hr
    rw [hword row (hin row List.mem_cons_self)] at he
    obtain ⟨rfl, rfl⟩ := Prod.mk.inj he
    refine ⟨before, row, after, hl, (reaches_iff hrooted hne hmem).mp hreach, rfl, htext, ?_⟩
    intro later hmore hconcerns
    have hother := hlater later hmore ((reaches_iff hrooted hne hmem).mpr hconcerns)
    rwa [hword later (hin later (List.mem_cons_of_mem row hmore))] at hother
  · rintro ⟨before, row, after, hl, hconcerns, hid, htext, hlater⟩
    have hin : ∀ r ∈ row :: after, r ∈ lines.filterMap TagLine.row := fun r hr =>
      hl ▸ List.mem_append_right before hr
    refine ⟨row.tag, (AhoCorasick.lastId_filter_map _ _ _).mpr ⟨before, row, after, hl,
      (reaches_iff hrooted hne hmem).mpr hconcerns, ?_, ?_⟩, htext⟩
    · rw [hword row (hin row List.mem_cons_self), hid]
    · intro later hmore hreach
      rw [hword later (hin later (List.mem_cons_of_mem row hmore))]
      exact hlater later hmore ((reaches_iff hrooted hne hmem).mp hreach)

def splitEnv : NBClassifier.Env where
  hashlittle _ := 0
  spliteByChar line ch := line.splitOn ch
  isDigit _ := false

def foodTree : List NBClassifier.TreeLine :=
  [⟨text "3\t1\t0\tfood\t0", fun _ => 0⟩, ⟨text "5\t2\t3\ttea\t0", fun _ => 0⟩]

def brandLines : List TagLine := [⟨text "5\t2\t7\tbrand\tab", fun _ => 0⟩]

theorem tags_reach_food : ∃ s s' S, loadClassTree splitEnv foodTree = some s ∧
    s.loadTags brandLines = some s' ∧
    s'.tagMatch 3 (text "brand") (text "xaby") = some S ∧ ∀ i, i ∈ S ↔
      ∃ before row after, brandLines.filterMap TagLine.row = before ++ row :: after ∧
        Concerns s.classNodeMap 3 (text "brand") row ∧ row.tagId.toInt = i ∧
        row.tag <:+: text "xaby" ∧
        ∀ later ∈ after, Concerns s.classNodeMap 3 (text "brand") later →
          later.tag ≠ row.tag := by
  obtain ⟨s, hs, -⟩ := loadClassTree_fresh splitEnv foodTree
  have hids : (loadClassTree splitEnv foodTree).map (fun s => s.classNodeMap.keys) =
      some [0, 3, 5] := by decide +kernel
  have hkeys : s.classNodeMap.keys = [0, 3, 5] := by
    rw [hs] at hids
    exact Option.some.inj hids
  have hmem : ∀ c, c ∈ s.classNodeMap ↔ c ∈ [0, 3, 5] := fun c => by rw [← hkeys]; rfl
  have hpos : ∀ c ∈ [(0 : Int32), 3, 5], c ≠ 0 → 0 < c := by
    simp only [List.forall_mem_cons, List.not_mem_nil, false_imp_iff, implies_true, and_true]
    decide
  obtain ⟨s', S, hrest⟩ := tags_reach splitEnv foodTree brandLines hs
    (fun c hc => hpos c ((hmem c).mp hc))
    (by decide +kernel) (by decide : (0 : Int32) < 3) ((hmem 3).mpr (by decide))
    (text "brand") (text "xaby")
  exact ⟨s, s', S, hs, hrest⟩

end

end TextMining.BfdClassTree
