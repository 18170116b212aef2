import TextMining.AhoCorasick.Build

/-!
# Matching

After a build the scan stands at the longest suffix of the text read so far
that has a node, and the walk over the failure links collects the ids of all
its labelled suffixes. `getMatch_build` says which ids a text yields in terms
of the ids stored before the build; `getMatch_exact` is the dictionary case.
-/

namespace TextMining.AhoCorasick

open Suffix

/-- The ids that the scan from `off` meets at each character. -/
def scan (B : AhoCorasick) : Nat → List UInt8 → Option (List (List Int))
  | _, [] => some []
  | off, c :: str =>
    (B.fallBack c B.size off).bind fun off =>
      match (B.node off).child c with
      | none => (B.scan off str).map ([] :: ·)
      | some off => (B.backIds B.size off).bind fun ids => (B.scan off str).map (ids :: ·)

def EndsIn (A : AhoCorasick) (text : List UInt8) (i : Int) : Prop :=
  i ≠ None ∧ ∃ w, w ≠ [] ∧ w <:+ text ∧ A.idAt w = i

section
variable {A : AhoCorasick} {i : Int} {text : List UInt8}

theorem not_endsIn_nil : ¬ A.EndsIn [] i :=
  fun ⟨_, _, hne, hw, _⟩ => hne (List.suffix_nil.mp hw)

theorem endsIn_longest : A.EndsIn (longest A.Has text) i ↔ A.EndsIn text i := by
  refine and_congr_right fun hi => exists_congr fun w => ?_
  constructor
  · rintro ⟨hne, hw, hid⟩
    exact ⟨hne, hw.trans (longest_suffix _ _), hid⟩
  · rintro ⟨hne, hw, hid⟩
    have hlab : A.Labelled w := ⟨hne, hid ▸ hi⟩
    exact ⟨hne, suffix_longest hw hlab.has, hid⟩

theorem endsIn_iff : (i ≠ None ∧ ∃ x, x ≠ [] ∧ x <:+ text ∧ A.Has x ∧ A.inherit x = i) ↔
    A.EndsIn text i := by
  refine and_congr_right fun hi => ?_
  constructor
  · rintro ⟨x, -, hx, -, hinh⟩
    -- the longest labelled suffix of `x` is the word that lent the id
    unfold inherit at hinh
    split at hinh
    · exact absurd hinh.symm hi
    · rename_i hne
      exact ⟨_, hne, (longest_suffix A.Labelled x).trans hx, hinh⟩
  · rintro ⟨w, hne, hw, hid⟩
    have hlab : A.Labelled w := ⟨hne, hid ▸ hi⟩
    exact ⟨w, hne, hw, hlab.has, (inherit_of_ne hne hlab.2).trans hid⟩

end

structure Built (A B : AhoCorasick) : Prop where
  trie : A.Trie
  same : SameTrie A B
  finished : ∀ w, w ≠ [] → A.Has w → Finished A B w

section
variable {A B : AhoCorasick} (h : Built A B)
include h

theorem Built.fallBack {c : UInt8} {fuel : Nat} {v : List UInt8} {off : Nat}
    (hv : A.walk v = some off) (hfuel : v.length ≤ fuel) :
    ∃ v' off', B.fallBack c fuel off = some off' ∧ A.walk v' = some off' ∧
      longest A.Has (v ++ [c]) = longest A.Has (v' ++ [c]) ∧ (A.Has (v' ++ [c]) ∨ v' = []) := by
  induction fuel generalizing v off with
  | zero =>
    obtain rfl : v = [] := List.length_eq_zero_iff.mp (by omega)
    obtain rfl : Root = off := Option.some.inj hv
    exact ⟨[], Root, by simp [AhoCorasick.fallBack], hv, rfl, .inr rfl⟩
  | succ fuel ih =>
    have hwalk : A.walk (v ++ [c]) = (A.node off).child c := by simp [walk_concat, hv]
    unfold AhoCorasick.fallBack
    split
    · rename_i hcond
      rw [h.same.child] at hcond
      have hne : v ≠ [] := by
        rintro rfl
        exact hcond.1 (Option.some.inj hv).symm
      have hhas : ¬ A.Has (v ++ [c]) := by simp [Has, hwalk, hcond.2]
      obtain ⟨k, hk, hwk⟩ := (h.finished v hne (has_iff.mpr ⟨_, hv⟩) off hv).1
      have hlt := border_length A.Has hne
      obtain ⟨v', off', hfb, hw', hlong, hend⟩ := ih hwk (by omega)
      refine ⟨v', off', by simpa [hk] using hfb, hw', ?_, hend⟩
      rw [longest_concat_of_not_mem (prefixClosed_has A) hne hhas, hlong]
    · rename_i hcond
      refine ⟨v, off, rfl, hv, rfl, ?_⟩
      rw [h.same.child, not_and_or, not_not] at hcond
      rcases hcond with rfl | hc
      · exact .inr (h.trie.inj _ _ _ hv A.walk_nil)
      · obtain ⟨j, hj⟩ := Option.ne_none_iff_exists'.mp hc
        exact .inl (has_iff.mpr ⟨j, by rw [hwalk, hj]⟩)

omit h in
theorem inherit_ne_of_suffix {x v : List UInt8} (hx : x <:+ v) (hi : A.inherit x ≠ None) :
    A.inherit v ≠ None := by
  unfold inherit at hi ⊢
  split at hi
  · exact absurd rfl hi
  · rename_i hne
    have hlab := mem_of_longest_ne_nil hne
    have hsuf := suffix_longest ((longest_suffix A.Labelled x).trans hx) hlab
    have hvne : longest A.Labelled v ≠ [] := by
      intro hnil
      rw [hnil, List.suffix_nil] at hsuf
      exact hne hsuf
    rw [if_neg hvne]
    exact (mem_of_longest_ne_nil hvne).2

theorem Built.backIds {fuel : Nat} {v : List UInt8} {off : Nat} (hv : A.walk v = some off)
    (hfuel : v.length ≤ fuel) :
    ∃ ids, B.backIds fuel off = some ids ∧
      ∀ i, i ∈ ids ↔ i ≠ None ∧ ∃ x, x ≠ [] ∧ x <:+ v ∧ A.Has x ∧ A.inherit x = i := by
  induction fuel generalizing v off with
  | zero =>
    obtain rfl : v = [] := List.length_eq_zero_iff.mp (by omega)
    obtain rfl : Root = off := Option.some.inj hv
    refine ⟨[], by simp [AhoCorasick.backIds], fun i => ?_⟩
    simp only [List.not_mem_nil, List.suffix_nil, false_iff, not_and, not_exists]
    exact fun _ x hne hx => absurd hx hne
  | succ fuel ih =>
    unfold AhoCorasick.backIds
    split
    · rename_i hcond
      have hne : v ≠ [] := by
        rintro rfl
        exact hcond.2 (Option.some.inj hv).symm
      have hhas : A.Has v := has_iff.mpr ⟨_, hv⟩
      obtain ⟨⟨k, hk, hwk⟩, hid⟩ := h.finished v hne hhas off hv
      have hlt := border_length A.Has hne
      obtain ⟨ids, hids, hmem⟩ := ih hwk (by omega)
      refine ⟨A.inherit v :: ids, by simp [hk, hids, hid], fun i => ?_⟩
      rw [List.mem_cons, hmem]
      constructor
      · rintro (rfl | ⟨hi, x, hxne, hx, hhasx, hinh⟩)
        · exact ⟨hid ▸ hcond.1, v, hne, List.suffix_rfl, hhas, rfl⟩
        · exact ⟨hi, x, hxne, hx.trans (border_suffix A.Has v), hhasx, hinh⟩
      · rintro ⟨hi, x, hxne, hx, hhasx, hinh⟩
        rcases (suffix_iff_border hhasx).mp hx with rfl | hx
        · exact .inl hinh.symm
        · exact .inr ⟨hi, x, hxne, hx, hhasx, hinh⟩
    · rename_i hcond
      refine ⟨[], rfl, fun i => ?_⟩
      simp only [List.not_mem_nil, false_iff, not_and, not_exists]
      intro hi x hxne hx hhasx hinh
      by_cases hne : v = []
      · subst hne
        exact hxne (List.suffix_nil.mp hx)
      · -- the loop stopped at a node without an id: no suffix has one
        have hroot : off ≠ Root := fun he => hne (h.trie.inj _ _ _ (he ▸ hv) A.walk_nil)
        have hid := (h.finished v hne (has_iff.mpr ⟨_, hv⟩) off hv).2
        refine hcond ⟨?_, hroot⟩
        rw [hid]
        exact inherit_ne_of_suffix hx (hinh ▸ hi)

theorem Built.scan {u : List UInt8} {off : Nat} (str : List UInt8)
    (hu : A.walk (longest A.Has u) = some off) :
    ∃ found, B.scan off str = some found ∧ found.length = str.length ∧
      ∀ k ids, found[k]? = some ids → ∀ i, i ∈ ids ↔ A.EndsIn (u ++ str.take (k + 1)) i := by
  induction str generalizing u off with
  | nil => exact ⟨[], rfl, rfl, fun _ _ hk => nomatch hk⟩
  | cons c str ih =>
    have hlen : (longest A.Has u).length ≤ B.size := by
      rw [h.same.size]
      exact (h.trie.length_lt (has_iff.mpr ⟨_, hu⟩)).le
    obtain ⟨v, off', hfb, hv, hlong, hend⟩ := h.fallBack (c := c) hu hlen
    rw [longest_longest_concat (prefixClosed_has A)] at hlong
    have hchild : (B.node off').child c = A.walk (v ++ [c]) := by
      rw [h.same.child, walk_concat, hv, Option.bind_some]
    simp only [AhoCorasick.scan, hfb, Option.bind_some, hchild]
    -- the rest of the text is scanned behind `c`
    have hrest : ∀ k, u ++ [c] ++ str.take (k + 1) = u ++ (c :: str).take (k + 1 + 1) := by
      intro k
      rw [List.take_succ_cons, List.append_assoc, List.singleton_append]
    cases hc : A.walk (v ++ [c]) with
    | none =>
      have hhas : ¬ A.Has (v ++ [c]) := by simp [Has, hc]
      obtain rfl : v = [] := hend.resolve_left hhas
      have hnil : longest A.Has (u ++ [c]) = [] := by rw [hlong, longest_eq_border hhas]; rfl
      obtain ⟨found, hfound, hlen, hids⟩ := ih (u := u ++ [c]) (by rw [hnil]; exact hv)
      refine ⟨[] :: found, by simp [hfound], by simp [hlen], fun k ids hk i => ?_⟩
      cases k with
      | zero =>
        cases hk
        rw [List.take_one, List.head?_cons, Option.toList_some, ← endsIn_longest, hnil]
        exact iff_of_false List.not_mem_nil not_endsIn_nil
      | succ k => exact (hids k ids hk i).trans (by rw [hrest])
    | some j =>
      have hhas : A.Has (v ++ [c]) := has_iff.mpr ⟨j, hc⟩
      rw [longest_of_mem hhas] at hlong
      have hfuel : (v ++ [c]).length ≤ B.size := by
        rw [h.same.size]
        exact (h.trie.length_lt hhas).le
      obtain ⟨first, hfirst, hmem⟩ := h.backIds hc hfuel
      obtain ⟨found, hfound, hlen, hids⟩ := ih (u := u ++ [c]) (by rw [hlong]; exact hc)
      refine ⟨first :: found, by simp [hfirst, hfound], by simp [hlen], fun k ids hk i => ?_⟩
      cases k with
      | zero =>
        cases hk
        rw [List.take_one, List.head?_cons, Option.toList_some, ← endsIn_longest, hlong, hmem,
          endsIn_iff]
      | succ k => exact (hids k ids hk i).trans (by rw [hrest])

end

theorem matchLoop_scan (B : AhoCorasick) (off : Nat) (ret : OrdSet Int) (str : List UInt8) :
    B.matchLoop off ret str = (B.scan off str).map fun found => found.foldl OrdSet.insertAll ret := by
  induction str generalizing off ret with
  | nil => rfl
  | cons c str ih =>
    rw [matchLoop, scan, Option.map_bind]
    refine Option.bind_congr fun off _ => ?_
    rw [Function.comp_apply]
    cases (B.node off).child c with
    | none =>
      dsimp only
      rw [Option.map_map]
      exact ih off ret
    | some off =>
      dsimp only
      rw [Option.map_bind]
      refine Option.bind_congr fun ids _ => ?_
      rw [Function.comp_apply, Option.map_map]
      exact ih off (ret.insertAll ids)

theorem scan_build {A : AhoCorasick} (ht : A.Trie) (text : List UInt8) :
    ∃ B found, A.buildAutomata = some B ∧ B.scan Root text = some found ∧
      found.length = text.length ∧
      ∀ k ids, found[k]? = some ids → ∀ i, i ∈ ids ↔ A.EndsIn (text.take (k + 1)) i := by
  obtain ⟨B, hB, hs, hfin⟩ := buildAutomata_spec ht
  have hbuilt : Built A B := ⟨ht, hs, hfin⟩
  obtain ⟨found, hfound, hlen, hids⟩ := hbuilt.scan (u := []) text A.walk_nil
  exact ⟨B, found, hB, hfound, hlen, hids⟩

theorem infix_iff_take {w text : List UInt8} (hne : w ≠ []) :
    w <:+: text ↔ ∃ k < text.length, w <:+ text.take (k + 1) := by
  constructor
  · intro hw
    obtain ⟨t, hwt, ht⟩ := List.infix_iff_suffix_prefix.mp hw
    have hpos : 0 < t.length := List.length_pos_iff.mpr fun hnil =>
      hne (List.suffix_nil.mp (hnil ▸ hwt))
    have hle := ht.length_le
    refine ⟨t.length - 1, by omega, ?_⟩
    rwa [Nat.sub_add_cancel hpos, ← List.prefix_iff_eq_take.mp ht]
  · rintro ⟨k, -, hw⟩
    exact hw.isInfix.trans (List.take_prefix _ _).isInfix

theorem exists_endsIn_iff {A : AhoCorasick} {text : List UInt8} {i : Int} :
    (i ≠ None ∧ ∃ w, w ≠ [] ∧ w <:+: text ∧ A.idAt w = i) ↔
      ∃ k < text.length, A.EndsIn (text.take (k + 1)) i := by
  constructor
  · rintro ⟨hi, w, hne, hw, hid⟩
    obtain ⟨k, hk, hsuf⟩ := (infix_iff_take hne).mp hw
    exact ⟨k, hk, hi, w, hne, hsuf, hid⟩
  · rintro ⟨k, hk, hi, w, hne, hsuf, hid⟩
    exact ⟨hi, w, hne, (infix_iff_take hne).mpr ⟨k, hk, hsuf⟩, hid⟩

/-- After a build the match of a text is the set of ids that were stored
before the build for the words occurring in the text. -/
theorem getMatch_build {A : AhoCorasick} (ht : A.Trie) (text : List UInt8) :
    ∃ B S, A.buildAutomata = some B ∧ B.getMatch text = some S ∧
      ∀ i, i ∈ S ↔ i ≠ None ∧ ∃ w, w ≠ [] ∧ w <:+: text ∧ A.idAt w = i := by
  obtain ⟨B, found, hB, hfound, hlen, hids⟩ := scan_build ht text
  refine ⟨B, _, hB, by rw [getMatch, matchLoop_scan, hfound, Option.map_some], fun i => ?_⟩
  rw [OrdSet.mem_foldl_insertAll, or_iff_right (OrdSet.not_mem_empty i), exists_endsIn_iff]
  constructor
  · rintro ⟨ids, hmem, hi⟩
    obtain ⟨k, hk, rfl⟩ := List.mem_iff_getElem.mp hmem
    exact ⟨k, hlen ▸ hk, (hids k _ (List.getElem?_eq_getElem hk) i).mp hi⟩
  · rintro ⟨k, hk, hends⟩
    rw [← hlen] at hk
    refine ⟨found[k], List.getElem_mem hk, ?_⟩
    exact (hids k _ (List.getElem?_eq_getElem hk) i).mpr hends

-- ---------------------------------------------------------------------------
-- A dictionary inserted before one build
-- ---------------------------------------------------------------------------

abbrev Dict := List (List UInt8 × Int)

def insertAll (A : AhoCorasick) (dict : Dict) : AhoCorasick :=
  dict.foldl (fun A e => A.insert e.1 e.2) A

def lastId : Dict → List UInt8 → Option Int
  | [], _ => none
  | e :: dict, w => lastId dict w <|> if e.1 = w then some e.2 else none

theorem lastId_append (d e : Dict) (w : List UInt8) :
    lastId (d ++ e) w = (lastId e w <|> lastId d w) := by
  induction d with
  | nil => simp [lastId]
  | cons x d ih => simp [lastId, ih, Option.or_assoc]

theorem lastId_mem {dict : Dict} {w : List UInt8} {i : Int} (h : lastId dict w = some i) :
    (w, i) ∈ dict := by
  induction dict with
  | nil => simp [lastId] at h
  | cons e dict ih =>
    cases hl : lastId dict w with
    | some j =>
      rw [lastId, hl] at h
      obtain rfl : j = i := by simpa using h
      exact List.mem_cons_of_mem _ (ih hl)
    | none =>
      rw [lastId, hl] at h
      by_cases he : e.1 = w
      · obtain rfl : e.2 = i := by simpa [he] using h
        simp [← he]
      · simp [he] at h

theorem lastId_eq_none {dict : Dict} {w : List UInt8} :
    lastId dict w = none ↔ ∀ e ∈ dict, e.1 ≠ w := by
  induction dict with
  | nil => simp [lastId]
  | cons e dict ih =>
    rw [List.forall_mem_cons, ← ih, lastId]
    cases lastId dict w with
    | some j => simp
    | none => simp

theorem lastId_cons_eq_some {dict : Dict} {e : List UInt8 × Int} {w : List UInt8} {i : Int} :
    lastId (e :: dict) w = some i ↔
      lastId dict w = some i ∨ (e.1 = w ∧ e.2 = i ∧ lastId dict w = none) := by
  rw [lastId]
  cases lastId dict w with
  | some j => simp
  | none => simp

theorem lastId_filter_map {α : Type*} (word : α → List UInt8 × Int) (p : α → Bool) (l : List α)
    {w : List UInt8} {i : Int} : lastId ((l.filter p).map word) w = some i ↔
      ∃ before a after, l = before ++ a :: after ∧ p a ∧ word a = (w, i) ∧
        ∀ b ∈ after, p b → (word b).1 ≠ w := by
  induction l with
  | nil =>
    refine iff_of_false (fun h => nomatch h) ?_
    rintro ⟨before, a, after, hl, -⟩
    exact absurd hl.symm (by simp)
  | cons x l ih =>
    have hnone : lastId ((l.filter p).map word) w = none ↔ ∀ b ∈ l, p b → (word b).1 ≠ w := by
      rw [lastId_eq_none, List.forall_mem_map]
      simp only [List.mem_filter, and_imp]
    constructor
    · intro h
      rw [List.filter_cons] at h
      split at h
      · rename_i hp
        rw [List.map_cons, lastId_cons_eq_some, ih, hnone] at h
        rcases h with ⟨before, a, after, rfl, hrest⟩ | ⟨hw, hi, hlater⟩
        · exact ⟨x :: before, a, after, rfl, hrest⟩
        · exact ⟨[], x, l, rfl, hp, Prod.ext hw hi, hlater⟩
      · obtain ⟨before, a, after, rfl, hrest⟩ := ih.mp h
        exact ⟨x :: before, a, after, rfl, hrest⟩
    · rintro ⟨before, a, after, hl, hp, hword, hlater⟩
      cases before with
      | nil =>
        cases hl
        rw [List.filter_cons_of_pos hp, List.map_cons, lastId_cons_eq_some, hnone, hword]
        exact .inr ⟨rfl, rfl, hlater⟩
      | cons y before =>
        cases hl
        have hin := ih.mpr ⟨before, a, after, rfl, hp, hword, hlater⟩
        rw [List.filter_cons]
        split
        · rw [List.map_cons, lastId_cons_eq_some]
          exact .inl hin
        · exact hin

theorem insertAll_spec {A : AhoCorasick} (h : A.Trie) (dict : Dict) :
    (A.insertAll dict).Trie ∧
      (∀ u, (A.insertAll dict).Has u ↔ A.Has u ∨ ∃ e ∈ dict, u <+: e.1) ∧
      ∀ u, (A.insertAll dict).idAt u = (lastId dict u).getD (A.idAt u) := by
  induction dict generalizing A with
  | nil => exact ⟨h, by simp [insertAll], fun _ => rfl⟩
  | cons e dict ih =>
    obtain ⟨h1, h2, h3⟩ := insert_spec h e.1 e.2
    obtain ⟨i1, i2, i3⟩ := ih h1
    have hstep : A.insertAll (e :: dict) = (A.insert e.1 e.2).insertAll dict := rfl
    rw [hstep]
    refine ⟨i1, fun u => ?_, fun u => ?_⟩
    · rw [i2, h2]
      simp only [List.mem_cons, exists_eq_or_imp]
      tauto
    · rw [i3, h3, lastId]
      cases lastId dict u with
      | some i => simp
      | none => by_cases hu : u = e.1 <;> simp [hu, eq_comm]

theorem endsIn_dict {dict : Dict} {text : List UInt8} {i : Int} :
    (clear.insertAll dict).EndsIn text i ↔
      i ≠ None ∧ ∃ w, w ≠ [] ∧ lastId dict w = some i ∧ w <:+ text := by
  obtain ⟨-, -, hid⟩ := insertAll_spec trie_clear dict
  refine and_congr_right fun hi => exists_congr fun w => and_congr_right fun _ => ?_
  rw [and_comm]
  refine and_congr_left fun _ => ?_
  rw [hid, idAt_clear]
  cases lastId dict w with
  | none => exact iff_of_false (fun h => hi h.symm) (fun h => by cases h)
  | some j => rw [Option.getD_some, Option.some_inj]

theorem endsIn_insertAll {dict : Dict} (hwords : ∀ e ∈ dict, e.1 ≠ [] ∧ e.2 ≠ None)
    {text : List UInt8} {i : Int} :
    (clear.insertAll dict).EndsIn text i ↔ ∃ w, lastId dict w = some i ∧ w <:+ text := by
  rw [endsIn_dict]
  constructor
  · rintro ⟨-, w, -, hw⟩
    exact ⟨w, hw⟩
  · rintro ⟨w, hl, hw⟩
    obtain ⟨hne, hnone⟩ := hwords _ (lastId_mem hl)
    exact ⟨hnone, w, hne, hl, hw⟩

theorem stored_iff {dict : Dict} (hwords : ∀ e ∈ dict, e.1 ≠ [] ∧ e.2 ≠ None) {text : List UInt8}
    {i : Int} : (i ≠ None ∧ ∃ w, w ≠ [] ∧ w <:+: text ∧ (clear.insertAll dict).idAt w = i) ↔
      ∃ w, lastId dict w = some i ∧ w <:+: text := by
  rw [exists_endsIn_iff]
  constructor
  · rintro ⟨k, hk, hends⟩
    obtain ⟨w, hl, hw⟩ := (endsIn_insertAll hwords).mp hends
    exact ⟨w, hl, (infix_iff_take (hwords _ (lastId_mem hl)).1).mpr ⟨k, hk, hw⟩⟩
  · rintro ⟨w, hl, hw⟩
    obtain ⟨k, hk, hw⟩ := (infix_iff_take (hwords _ (lastId_mem hl)).1).mp hw
    exact ⟨k, hk, (endsIn_insertAll hwords).mpr ⟨w, hl, hw⟩⟩

/-- Matching is exact: with non-empty words and ids other than `None`, one
build and any text, `get_match` returns the ids of the words that occur. -/
theorem getMatch_exact (dict : Dict) (hwords : ∀ e ∈ dict, e.1 ≠ [] ∧ e.2 ≠ None)
    (text : List UInt8) :
    ∃ A S, (clear.insertAll dict).buildAutomata = some A ∧ A.getMatch text = some S ∧
      ∀ i, i ∈ S ↔ ∃ w, lastId dict w = some i ∧ w <:+: text := by
  obtain ⟨htrie, -, -⟩ := insertAll_spec trie_clear dict
  obtain ⟨A, S, hA, hS, hmem⟩ := getMatch_build htrie text
  exact ⟨A, S, hA, hS, fun i => (hmem i).trans (stored_iff hwords)⟩

/-- The dictionary she, he, say, shr, her and the text of the source's test. -/
theorem getMatch_exact_yasherhs :
    let dict : Dict := [([115, 104, 101], 1), ([104, 101], 2), ([115, 97, 121], 3),
      ([115, 104, 114], 4), ([104, 101, 114], 5)]
    ∃ A S, (clear.insertAll dict).buildAutomata = some A ∧
      A.getMatch [121, 97, 115, 104, 101, 114, 104, 115] = some S ∧
      ∀ i, i ∈ S ↔ ∃ w, lastId dict w = some i ∧ w <:+: [121, 97, 115, 104, 101, 114, 104, 115] :=
  getMatch_exact _ (by decide) _

end TextMining.AhoCorasick
