import TextMining.WeiboWordNet.Processor

/-!
# The slots of the first indexer

A pair's slot should hold the record of that pair. The last pair that
`AddCooc` records gets a slot one past the end of `mRelateInfo`, so the slots
are right after every post only when no post has two different terms, and
then no pair is ever recorded.
-/

namespace TextMining.WeiboWordNet

open Cooc (cooccurrences)

/-- Two different terms that share one of the posts. -/
def Pair (posts : List Post) (a b : List UInt8) : Prop :=
  a ≠ b ∧ ∃ post ∈ posts, a ∈ post.terms ∧ b ∈ post.terms

/-- The slot of each pair is in range and the pair's own, and its record has
the number of posts with both terms. -/
structure SlotsOwn (hashString : List UInt8 → UInt32) (posts : List Post) (s : State) : Prop where
  record : ∀ a b, Pair posts a b → ∃ slot, s.slotOf hashString a b = some slot ∧
    ∃ h : slot < s.mRelateInfo.length,
      s.mRelateInfo[slot].numNow.toNat = cooccurrences (posts.map Post.terms) a b
  own : ∀ a b a' b', Pair posts a b → Pair posts a' b' →
    s.slotOf hashString a b = s.slotOf hashString a' b' → a = a' ∧ b = b'

namespace State

variable {s s' : State} {hashString : List UInt8 → UInt32}

-- ---------------------------------------------------------------------------
-- One post
-- ---------------------------------------------------------------------------

structure Scanned (hashString : List UInt8 → UInt32) (s : State) (done : Post)
    (acc : State × List UInt32) : Prop where
  inv : Inv acc.1
  num : acc.1.mRelateTermNum = s.mRelateTermNum
  nodup : acc.2.Nodup
  mem : ∀ hash, hash ∈ acc.2 ↔ hash ∈ done.terms.map hashString
  index : ∀ hash ∈ acc.2, hash ∈ acc.1.mTermIndex
  slots : ∀ a b slot, s.slotOf hashString a b = some slot →
    acc.1.slotOf hashString a b = some slot

theorem Scanned.step {done : Post} {acc : State × List UInt32}
    (h : Scanned hashString s done acc) (item : WordItem) :
    Scanned hashString s (done ++ [item]) (scanTerm hashString acc item) := by
  have hterms : ∀ hash, hash ∈ (Post.terms (done ++ [item])).map hashString ↔
      hash ∈ done.terms.map hashString ∨ hash = hashString item.term := by
    simp [Post.terms]
  by_cases hm : hashString item.term ∈ acc.2
  · rw [scanTerm, if_pos hm]
    refine { h with mem := fun hash => ?_ }
    rw [hterms, ← h.mem]
    exact ⟨.inl, fun hh => hh.elim id fun he => he ▸ hm⟩
  · obtain ⟨s', hrec, hinv, hnum, hidx, hslots⟩ := h.inv.recordTerm hashString item
    rw [scanTerm, if_neg hm, hrec]
    refine ⟨hinv, hnum.trans h.num, ?_, ?_, ?_, fun a b slot hs => hslots a b slot (h.slots a b slot hs)⟩
    · exact List.nodup_append.mpr ⟨h.nodup, List.nodup_singleton _, fun x hx y hy => by
        rw [List.mem_singleton.mp hy]
        exact fun he => hm (he ▸ hx)⟩
    · intro hash
      rw [hterms, ← h.mem, List.mem_append, List.mem_singleton]
    · intro hash hh
      rw [hidx]
      rcases List.mem_append.mp hh with hh | hh
      · exact .inr (h.index hash hh)
      · exact .inl (List.mem_singleton.mp hh)

variable (hashString) in
theorem Inv.scanTerms (h : Inv s) (post : Post) :
    Scanned hashString s post (s.scanTerms hashString post) := by
  induction post using List.reverseRecOn with
  | nil => exact ⟨h, rfl, List.nodup_nil, by simp [State.scanTerms, Post.terms],
      by simp [State.scanTerms], fun _ _ _ hs => hs⟩
  | append_singleton post item ih =>
    rw [State.scanTerms, List.foldl_append]
    exact ih.step item

/-- The invariant of a run: the number of the last slot given out belongs to a
pair of the posts read. -/
structure LastOwned (hashString : List UInt8 → UInt32) (posts : List Post) (s : State) : Prop where
  inv : Inv s
  last : 0 < s.mRelateTermNum →
    ∃ a b, Pair posts a b ∧ s.slotOf hashString a b = some s.mRelateTermNum

theorem Pair.mono {posts : List Post} {a b : List UInt8} (h : Pair posts a b) (post : Post) :
    Pair (posts ++ [post]) a b := by
  obtain ⟨hne, p, hp, hab⟩ := h
  exact ⟨hne, p, List.mem_append_left _ hp, hab⟩

theorem LastOwned.addPair {posts : List Post} (h : LastOwned hashString posts s)
    {a b : List UInt8} (hab : Pair posts a b) (hi : hashString a ∈ s.mTermIndex)
    (hs : s.addPair (hashString a) (hashString b) = some s') :
    LastOwned hashString posts s' ∧ s'.mTermIndex = s.mTermIndex ∧ 0 < s'.mRelateTermNum := by
  obtain ⟨hinv, hidx, hpos, hcase⟩ := h.inv.addPair hashString hi hs
  refine ⟨⟨hinv, fun _ => ?_⟩, hidx, hpos⟩
  rcases hcase with ⟨hnum, hinfo⟩ | hnew
  · obtain ⟨x, y, hxy, hslot⟩ := h.last (hnum ▸ hpos)
    refine ⟨x, y, hxy, ?_⟩
    simpa only [slotOf, findCooc, hidx, hinfo, hnum] using hslot
  · exact ⟨a, b, hab, hnew a b rfl rfl⟩

theorem Scanned.pair {posts : List Post} {post : Post} {acc : State × List UInt32}
    (h : Scanned hashString s post acc) (hp : post ∈ posts) {p : Nat × Nat}
    (hm : p ∈ WordNet.State.positions acc.2.length) :
    ∃ a b, Pair posts a b ∧ hashString a = acc.2.getD p.1 0 ∧ hashString b = acc.2.getD p.2 0 := by
  obtain ⟨hi, hj, hne⟩ := WordNet.mem_positions.mp hm
  rw [List.getD_eq_getElem _ _ hi, List.getD_eq_getElem _ _ hj]
  obtain ⟨a, ha, hha⟩ := List.mem_map.mp ((h.mem _).mp (List.getElem_mem hi))
  obtain ⟨b, hb, hhb⟩ := List.mem_map.mp ((h.mem _).mp (List.getElem_mem hj))
  refine ⟨a, b, ⟨fun hab => hne ?_, post, hp, ha, hb⟩, hha, hhb⟩
  exact h.nodup.getElem_inj_iff.mp (hha.symm.trans ((congrArg hashString hab).trans hhb))

theorem LastOwned.addCooc {posts : List Post} {post : Post} {s₀ : State} {hashValues : List UInt32}
    (hsc : Scanned hashString s₀ post (s, hashValues)) (hp : post ∈ posts)
    (h : LastOwned hashString posts s) (hs : s.addCooc hashValues = some s') :
    LastOwned hashString posts s' ∧
      (WordNet.State.positions hashValues.length ≠ [] → 0 < s'.mRelateTermNum) := by
  have hrun : ∀ ps : List (Nat × Nat), (∀ p ∈ ps, p ∈ WordNet.State.positions hashValues.length) →
      ∀ t, LastOwned hashString posts t → t.mTermIndex = s.mTermIndex →
      ps.foldlM (fun s p => s.addPair (hashValues.getD p.1 0) (hashValues.getD p.2 0)) t = some s' →
      LastOwned hashString posts s' ∧ (ps ≠ [] ∨ 0 < t.mRelateTermNum → 0 < s'.mRelateTermNum) := by
    intro ps
    induction ps with
    | nil =>
      rintro - t ht - hs
      cases hs
      exact ⟨ht, fun hor => hor.resolve_left (fun hne => hne rfl)⟩
    | cons p ps ih =>
      intro hsub t ht hidx hs
      rw [List.foldlM_cons] at hs
      obtain ⟨t', hstep, hrest⟩ := Option.bind_eq_some_iff.mp hs
      obtain ⟨a, b, hab, ha, hb⟩ := hsc.pair hp (hsub p (by simp))
      have hmem : hashString a ∈ t.mTermIndex := by
        obtain ⟨hi, -, -⟩ := WordNet.mem_positions.mp (hsub p (by simp))
        rw [hidx, ha, List.getD_eq_getElem _ _ hi]
        exact hsc.index _ (List.getElem_mem hi)
      rw [← ha, ← hb] at hstep
      obtain ⟨ht', hidx', hpos⟩ := ht.addPair hab hmem hstep
      obtain ⟨hfin, hgrow⟩ := ih (fun q hq => hsub q (by simp [hq])) t' ht' (hidx'.trans hidx) hrest
      exact ⟨hfin, fun _ => hgrow (.inr hpos)⟩
  obtain ⟨hfin, hgrow⟩ := hrun _ (fun _ hq => hq) s h rfl hs
  exact ⟨hfin, fun hne => hgrow (.inl hne)⟩

/-- A post that is read keeps the invariant, and with two different terms in
it a slot has been given out. -/
theorem LastOwned.parseLineOriginal {posts : List Post} (h : LastOwned hashString posts s)
    {post : Post} (hs : s.parseLineOriginal hashString post = some s') :
    LastOwned hashString (posts ++ [post]) s' ∧
      ((∃ a ∈ post.terms, ∃ b ∈ post.terms, hashString a ≠ hashString b) → 0 < s'.mRelateTermNum) := by
  have hsc := h.inv.scanTerms hashString post
  obtain ⟨t, ht, rfl⟩ := Option.map_eq_some_iff.mp hs
  have hstart : LastOwned hashString (posts ++ [post]) (s.scanTerms hashString post).1 := by
    refine ⟨hsc.inv, fun hpos => ?_⟩
    obtain ⟨a, b, hab, hslot⟩ := h.last (hsc.num ▸ hpos)
    exact ⟨a, b, Pair.mono hab post, hsc.num ▸ hsc.slots a b _ hslot⟩
  obtain ⟨hfin, hgrow⟩ := LastOwned.addCooc hsc (by simp) hstart ht
  refine ⟨⟨⟨hfin.inv.termNum, hfin.inv.relateTermNum, hfin.inv.index⟩, hfin.last⟩, ?_⟩
  rintro ⟨a, ha, b, hb, hne⟩
  obtain ⟨i, hi, hia⟩ := List.getElem_of_mem ((hsc.mem _).mpr (List.mem_map_of_mem ha))
  obtain ⟨j, hj, hjb⟩ := List.getElem_of_mem ((hsc.mem _).mpr (List.mem_map_of_mem hb))
  have hij : i ≠ j := by
    rintro rfl
    exact hne (hia.symm.trans hjb)
  exact hgrow (List.ne_nil_of_mem (WordNet.mem_positions.mpr ⟨hi, hj, hij⟩))

variable (hashString) in
theorem Inv.parseLineOriginal_single (h : Inv s) {post : Post}
    (hone : ∀ a ∈ post.terms, ∀ b ∈ post.terms, a = b) :
    ∃ s', s.parseLineOriginal hashString post = some s' ∧ Inv s' := by
  have hsc := h.scanTerms hashString post
  have hpos : WordNet.State.positions (s.scanTerms hashString post).2.length = [] := by
    refine List.eq_nil_iff_forall_not_mem.mpr fun p hp => ?_
    obtain ⟨a, b, ⟨hne, q, hq, ha, hb⟩, -, -⟩ := hsc.pair (List.mem_singleton.mpr rfl) hp
    rw [List.mem_singleton.mp hq] at ha hb
    exact hne (hone a ha b hb)
  refine ⟨_, by rw [parseLineOriginal, addCooc, hpos]; rfl, ?_⟩
  exact ⟨hsc.inv.termNum, hsc.inv.relateTermNum, hsc.inv.index⟩

end State

-- ---------------------------------------------------------------------------
-- Runs
-- ---------------------------------------------------------------------------

section
variable {hashString : List UInt8 → UInt32} {posts : List Post}

theorem run_concat (post : Post) :
    run hashString (posts ++ [post]) =
      (run hashString posts).bind fun s => s.parseLineOriginal hashString post := by
  simp only [run, List.foldlM_append, List.foldlM_cons, List.foldlM_nil, bind_pure]
  rfl

theorem lastOwned_run {s : State} (hs : run hashString posts = some s) :
    State.LastOwned hashString posts s := by
  induction posts using List.reverseRecOn generalizing s with
  | nil =>
    cases hs
    exact ⟨State.inv_empty, fun hpos => absurd hpos (Nat.lt_irrefl 0)⟩
  | append_singleton posts post ih =>
    rw [run_concat] at hs
    obtain ⟨t, ht, hs⟩ := Option.bind_eq_some_iff.mp hs
    exact ((ih ht).parseLineOriginal hs).1

theorem slot_outOfRange {post : Post} {s : State} (hs : run hashString (posts ++ [post]) = some s)
    {a b : List UInt8} (ha : a ∈ post.terms) (hb : b ∈ post.terms)
    (hne : hashString a ≠ hashString b) :
    ∃ x y, Pair (posts ++ [post]) x y ∧ s.slotOf hashString x y = some s.mRelateInfo.length := by
  rw [run_concat] at hs
  obtain ⟨t, ht, hs⟩ := Option.bind_eq_some_iff.mp hs
  obtain ⟨hlast, hgrow⟩ := (lastOwned_run ht).parseLineOriginal hs
  rw [hlast.inv.relateTermNum]
  exact hlast.last (hgrow ⟨a, ha, b, hb, hne⟩)

variable (hashString) in
theorem run_single (hone : ∀ post ∈ posts, ∀ a ∈ post.terms, ∀ b ∈ post.terms, a = b) :
    ∃ s, run hashString posts = some s ∧ State.Inv s := by
  induction posts using List.reverseRecOn with
  | nil => exact ⟨_, rfl, State.inv_empty⟩
  | append_singleton posts post ih =>
    obtain ⟨t, ht, hinv⟩ := ih fun p hp => hone p (List.mem_append_left _ hp)
    obtain ⟨s, hs, hinv'⟩ :=
      hinv.parseLineOriginal_single hashString (hone post (by simp))
    exact ⟨s, by rw [run_concat, ht, Option.bind_some, hs], hinv'⟩

/-- The slots denote their own pairs after every post exactly when no post has
two different terms. -/
theorem slotsOwn_iff (hinj : Set.InjOn hashString {t | ∃ post ∈ posts, t ∈ post.terms}) :
    (∀ done, done <+: posts → ∃ s, run hashString done = some s ∧ SlotsOwn hashString done s) ↔
      ∀ post ∈ posts, ∀ a ∈ post.terms, ∀ b ∈ post.terms, a = b := by
  constructor
  · intro h post hp a ha b hb
    by_contra hne
    have hhash : hashString a ≠ hashString b := fun he =>
      hne (hinj ⟨post, hp, ha⟩ ⟨post, hp, hb⟩ he)
    obtain ⟨done, rest, rfl⟩ := List.append_of_mem hp
    obtain ⟨s, hs, hown⟩ := h (done ++ [post]) (by simp)
    obtain ⟨x, y, hxy, hslot⟩ := slot_outOfRange hs ha hb hhash
    obtain ⟨slot, hslot', hlt, -⟩ := hown.record x y hxy
    rw [hslot, Option.some.injEq] at hslot'
    exact Nat.lt_irrefl _ (hslot' ▸ hlt)
  · rintro hone done ⟨rest, rfl⟩
    have hdone : ∀ post ∈ done, ∀ a ∈ post.terms, ∀ b ∈ post.terms, a = b :=
      fun post hp => hone post (List.mem_append_left _ hp)
    have hpair : ∀ a b, ¬ Pair done a b := by
      rintro a b ⟨hne, post, hp, ha, hb⟩
      exact hne (hdone post hp a ha b hb)
    obtain ⟨s, hs, -⟩ := run_single hashString hdone
    exact ⟨s, hs, fun a b hab => absurd hab (hpair a b), fun a b _ _ hab => absurd hab (hpair a b)⟩

end

/-- Two posts of one term each, `food` and `wine`. -/
theorem slotsOwn_one_term :
    let posts : List Post := [[⟨[102, 111, 111, 100], true⟩], [⟨[119, 105, 110, 101], false⟩]]
    ∃ s, run stlHashString posts = some s ∧ SlotsOwn stlHashString posts s := by
  refine (slotsOwn_iff ?_).mpr ?_ _ List.prefix_rfl
  · rintro a ⟨p, hp, ha⟩ b ⟨q, hq, hb⟩ he
    simp only [List.mem_cons, List.not_mem_nil, or_false] at hp hq
    rcases hp with rfl | rfl <;> rcases hq with rfl | rfl <;>
      simp only [Post.terms, List.map_cons, List.map_nil, List.mem_singleton] at ha hb <;>
      subst ha <;> subst hb <;> first | rfl | exact absurd he (by decide)
  · intro p hp a ha b hb
    simp only [List.mem_cons, List.not_mem_nil, or_false] at hp
    rcases hp with rfl | rfl <;>
      exact (List.mem_singleton.mp ha).trans (List.mem_singleton.mp hb).symm

/-- One post with the terms `food` and `wine`: its two pairs have the slots 1
and 2 of a vector of two records. -/
theorem last_slot_past_end :
    ¬ ∀ done, done <+: [[⟨[102, 111, 111, 100], true⟩, ⟨[119, 105, 110, 101], true⟩]] →
      ∃ s, run stlHashString done = some s ∧ SlotsOwn stlHashString done s := by
  intro h
  obtain ⟨s, hs, hown⟩ := h _ (List.prefix_refl _)
  have hlen : (run stlHashString
      [[⟨[102, 111, 111, 100], true⟩, ⟨[119, 105, 110, 101], true⟩]]).map
        (fun s => (s.slotOf stlHashString [119, 105, 110, 101] [102, 111, 111, 100],
          s.mRelateInfo.length)) = some (some 2, 2) := by decide +kernel
  rw [hs, Option.map_some, Option.some.injEq, Prod.mk.injEq] at hlen
  obtain ⟨slot, hslot, hlt, -⟩ := hown.record [119, 105, 110, 101] [102, 111, 111, 100]
    ⟨by decide, _, List.mem_singleton_self _, by decide, by decide⟩
  rw [hlen.1, Option.some.injEq] at hslot
  exact absurd hlt (by rw [← hslot, hlen.2]; decide)

end TextMining.WeiboWordNet
