import TextMining.Lib.OrdMap
import Mathlib.Data.List.Nodup
import Mathlib.Logic.Function.Basic
import Mathlib.Logic.Relation

/-!
# Trees given by father links

Every node of a tree but the root has a father in it, and each node lists its
sons. A tree grows by leaves. The depth falls along the father links, so a
walk along them ends.
-/

namespace TextMining.Forest

variable {K : Type*} [DecidableEq K]

abbrev Links (K : Type*) := K → Option (K × List K)

structure Tree (root : K) (links : Links K) (size : Nat) (depth : K → Nat) : Prop where
  top : ∃ p ss, links root = some (p, ss)
  father : ∀ c f ss, links c = some (f, ss) → c ≠ root →
    (∃ l, links f = some l) ∧ depth c = depth f + 1
  sons : ∀ f p ss, links f = some (p, ss) →
    ss.Nodup ∧ ∀ c, c ∈ ss ↔ c ≠ root ∧ ∃ ts, links c = some (f, ts)
  bound : ∀ c l, links c = some l → depth c < size

def addLeaf (links : Links K) (c f : K) : Links K := fun k =>
  if k = c then some (f, [])
  else if k = f then (links f).map fun l => (l.1, l.2 ++ [c])
  else links k

section
variable {root c f : K} {links : Links K} {size : Nat} {depth : K → Nat}

theorem addLeaf_self (links : Links K) (c f : K) : addLeaf links c f c = some (f, []) := if_pos rfl

theorem addLeaf_of_ne {k : K} (h : k ≠ c) :
    addLeaf links c f k = (links k).map fun l => (l.1, if k = f then l.2 ++ [c] else l.2) := by
  rw [addLeaf, if_neg h]
  by_cases hk : k = f
  · simp [hk]
  · simp [hk]

theorem tree_single {p : K} (hroot : links root = some (p, []))
    (hne : ∀ c, c ≠ root → links c = none) : Tree root links 1 fun _ => 0 where
  top := ⟨p, [], hroot⟩
  father c f ss hc hcr := by
    rw [hne c hcr] at hc
    cases hc
  sons f q ss hf := by
    have hfr : f = root := by
      by_contra h
      rw [hne f h] at hf
      cases hf
    subst hfr
    rw [hroot, Option.some.injEq, Prod.mk.injEq] at hf
    obtain ⟨-, rfl⟩ := hf
    refine ⟨List.nodup_nil, fun c => ⟨fun h => absurd h List.not_mem_nil, ?_⟩⟩
    rintro ⟨hc, ts, hl⟩
    rw [hne c hc] at hl
    cases hl
  bound _ _ _ := Nat.zero_lt_one

theorem Tree.addLeaf (h : Tree root links size depth) (hc : links c = none) {l : K × List K}
    (hf : links f = some l) :
    Tree root (addLeaf links c f) (size + 1) (Function.update depth c (depth f + 1)) := by
  have hfc : f ≠ c := by
    rintro rfl
    rw [hc] at hf
    cases hf
  have hrc : root ≠ c := by
    rintro rfl
    obtain ⟨p, ss, hr⟩ := h.top
    rw [hc] at hr
    cases hr
  have hdepth : ∀ k, k ≠ c → Function.update depth c (depth f + 1) k = depth k :=
    fun k hk => Function.update_of_ne hk _ _
  have hold : ∀ k, k ≠ c → ∀ g ss, Forest.addLeaf links c f k = some (g, ss) →
      ∃ ts, links k = some (g, ts) ∧ ss = if k = f then ts ++ [c] else ts := by
    intro k hk g ss hl
    rw [addLeaf_of_ne hk] at hl
    obtain ⟨⟨g', ts⟩, hold, he⟩ := Option.map_eq_some_iff.mp hl
    obtain ⟨rfl, rfl⟩ := Prod.mk.inj he
    exact ⟨ts, hold, rfl⟩
  have hsome : ∀ k l, links k = some l → ∃ l', Forest.addLeaf links c f k = some l' := by
    intro k l hl
    have hk : k ≠ c := by
      rintro rfl
      rw [hc] at hl
      cases hl
    exact ⟨_, by rw [addLeaf_of_ne hk, hl, Option.map_some]⟩
  constructor
  · obtain ⟨p, ss, hr⟩ := h.top
    obtain ⟨⟨p', ss'⟩, hr'⟩ := hsome root _ hr
    exact ⟨p', ss', hr'⟩
  · intro k g ss hl hk
    by_cases hkc : k = c
    · subst hkc
      rw [addLeaf_self, Option.some.injEq, Prod.mk.injEq] at hl
      obtain ⟨rfl, -⟩ := hl
      exact ⟨hsome f l hf, by rw [Function.update_self, hdepth f hfc]⟩
    · obtain ⟨ts, hl, -⟩ := hold k hkc g ss hl
      obtain ⟨⟨l', hg⟩, hd⟩ := h.father k g ts hl hk
      have hgc : g ≠ c := by
        rintro rfl
        rw [hc] at hg
        cases hg
      exact ⟨hsome g l' hg, by rw [hdepth k hkc, hdepth g hgc, hd]⟩
  · intro k p ss hl
    -- the old nodes below `k`
    have hbelow : ∀ x, x ≠ c → ((∃ ts, Forest.addLeaf links c f x = some (k, ts)) ↔
        ∃ ts, links x = some (k, ts)) := by
      intro x hx
      constructor
      · rintro ⟨ts, hl⟩
        obtain ⟨ts', hl, -⟩ := hold x hx k ts hl
        exact ⟨ts', hl⟩
      · rintro ⟨ts, hl⟩
        exact ⟨_, by rw [addLeaf_of_ne hx, hl, Option.map_some]⟩
    by_cases hkc : k = c
    · subst hkc
      rw [addLeaf_self, Option.some.injEq, Prod.mk.injEq] at hl
      obtain ⟨-, rfl⟩ := hl
      refine ⟨List.nodup_nil, fun x => ⟨fun hx => absurd hx List.not_mem_nil, ?_⟩⟩
      rintro ⟨hx, ts, hl⟩
      by_cases hxk : x = k
      · subst hxk
        rw [addLeaf_self, Option.some.injEq, Prod.mk.injEq] at hl
        exact absurd hl.1 hfc
      · obtain ⟨ts', hl⟩ := (hbelow x hxk).mp ⟨ts, hl⟩
        obtain ⟨⟨l', hk'⟩, -⟩ := h.father x k ts' hl hx
        rw [hc] at hk'
        cases hk'
    · obtain ⟨ts, hts, rfl⟩ := hold k hkc p ss hl
      obtain ⟨hnd, hmem⟩ := h.sons k p ts hts
      have hcts : c ∉ ts := fun hm => by
        obtain ⟨-, ts', hl'⟩ := (hmem c).mp hm
        rw [hc] at hl'
        cases hl'
      have hself : (∃ ts, Forest.addLeaf links c f c = some (k, ts)) ↔ k = f := by
        simp only [addLeaf_self, Option.some.injEq, Prod.mk.injEq, exists_and_left]
        exact ⟨fun he => he.1.symm, fun he => ⟨he.symm, [], rfl⟩⟩
      split
      · rename_i hkf
        refine ⟨List.nodup_append.mpr ⟨hnd, List.nodup_singleton c, fun x hx y hy => ?_⟩, fun x => ?_⟩
        · rw [List.mem_singleton.mp hy]
          exact fun he => hcts (he ▸ hx)
        · rw [List.mem_append, List.mem_singleton]
          by_cases hx : x = c
          · subst hx
            exact ⟨fun _ => ⟨Ne.symm hrc, hself.mpr hkf⟩, fun _ => .inr rfl⟩
          · rw [hbelow x hx, ← hmem x, or_iff_left hx]
      · rename_i hkf
        refine ⟨hnd, fun x => ?_⟩
        by_cases hx : x = c
        · subst hx
          exact ⟨fun hm => absurd hm hcts, fun hm => absurd (hself.mp hm.2) hkf⟩
        · rw [hbelow x hx, ← hmem x]
  · intro k l' hl
    by_cases hkc : k = c
    · rw [hkc, Function.update_self]
      exact Nat.succ_lt_succ (h.bound f l hf)
    · obtain ⟨ts, hl, -⟩ := hold k hkc l'.1 l'.2 hl
      rw [hdepth k hkc]
      exact Nat.lt_succ_of_lt (h.bound k _ hl)

end

-- ---------------------------------------------------------------------------
-- Paths towards the root
-- ---------------------------------------------------------------------------

def Father (root : K) (links : Links K) (c f : K) : Prop := c ≠ root ∧ ∃ ss, links c = some (f, ss)

/-- The nodes from `c` upwards, as far as `go` holds. -/
def path (go : K → Bool) (links : Links K) : Nat → K → List K
  | 0, _ => []
  | fuel + 1, c =>
    if go c then c :: match links c with
      | none => []
      | some l => path go links fuel l.1
    else []

section
variable {root c d : K} {links : Links K} {size fuel : Nat} {depth : K → Nat} {go : K → Bool}

omit [DecidableEq K] in
theorem Tree.mem_path (h : Tree root links size depth)
    (hgo : ∀ c l, links c = some l → (go c = true ↔ c ≠ root)) (hc : ∃ l, links c = some l)
    (hfuel : depth c < fuel) :
    d ∈ path go links fuel c ↔ d ≠ root ∧ Relation.ReflTransGen (Father root links) c d := by
  induction fuel generalizing c with
  | zero => exact absurd hfuel (Nat.not_lt_zero _)
  | succ fuel ih =>
    obtain ⟨⟨f, ss⟩, hl⟩ := hc
    rw [path, Relation.ReflTransGen.cases_head_iff]
    split
    · rename_i hg
      have hroot := (hgo c _ hl).mp hg
      obtain ⟨hf, hdepth⟩ := h.father c f ss hl hroot
      have hone : (∃ f', Father root links c f' ∧ Relation.ReflTransGen (Father root links) f' d) ↔
          Relation.ReflTransGen (Father root links) f d := by
        constructor
        · rintro ⟨f', ⟨-, ss', hl'⟩, hrest⟩
          cases hl.symm.trans hl'
          exact hrest
        · exact fun hrest => ⟨f, ⟨hroot, ss, hl⟩, hrest⟩
      rw [hone, hl, List.mem_cons, ih hf (by omega), eq_comm (a := d)]
      constructor
      · rintro (rfl | ⟨hd, hrest⟩)
        · exact ⟨hroot, .inl rfl⟩
        · exact ⟨hd, .inr hrest⟩
      · rintro ⟨hd, rfl | hrest⟩
        · exact .inl rfl
        · exact .inr ⟨hd, hrest⟩
    · rename_i hg
      have hroot : c = root := not_not.mp (mt (hgo c _ hl).mpr hg)
      refine iff_of_false List.not_mem_nil ?_
      rintro ⟨hd, rfl | ⟨f, ⟨hne, -⟩, -⟩⟩
      · exact hd hroot
      · exact hne hroot

omit [DecidableEq K] in
theorem eq_of_mem_path (hc : links c = none) (hd : d ∈ path go links fuel c) : d = c := by
  cases fuel with
  | zero => cases hd
  | succ fuel =>
    rw [path, hc] at hd
    split at hd
    · exact List.mem_singleton.mp hd
    · cases hd

omit [DecidableEq K] in
theorem Tree.depth_le (h : Tree root links size depth) (hroot : go root = false)
    (hd : d ∈ path go links fuel c) : depth d ≤ depth c := by
  induction fuel generalizing c with
  | zero => cases hd
  | succ fuel ih =>
    rw [path] at hd
    split at hd
    · rename_i hg
      rcases List.mem_cons.mp hd with rfl | hd
      · exact le_refl _
      · cases hl : links c with
        | none =>
          rw [hl] at hd
          cases hd
        | some l =>
          rw [hl] at hd
          have hne : c ≠ root := by
            rintro rfl
            exact Bool.false_ne_true (hroot.symm.trans hg)
          obtain ⟨-, hdepth⟩ := h.father c l.1 l.2 hl hne
          have hle := ih hd
          omega
    · cases hd

end

-- ---------------------------------------------------------------------------
-- Tables of nodes
-- ---------------------------------------------------------------------------

section
variable {T : Type*} [LinearOrder T] {N : Type*} (view : N → T × List T)

def linksOf (m : OrdMap T N) : Links T := fun c => (m.lookup c).map view

variable {view} {m : OrdMap T N} {c f : T}

theorem linksOf_isSome : (∃ l, linksOf view m c = some l) ↔ c ∈ m := by
  simp only [linksOf, Option.map_eq_some_iff, OrdMap.mem_iff]
  exact ⟨fun ⟨_, n, hn, _⟩ => ⟨n, hn⟩, fun ⟨n, hn⟩ => ⟨_, n, hn, rfl⟩⟩

theorem mem_of_linksOf {n : OrdMap T N} (h : linksOf view n = linksOf view m) : c ∈ n ↔ c ∈ m := by
  rw [← linksOf_isSome, h, linksOf_isSome]

theorem linksOf_modify {g : N → N} (hg : ∀ n, view (g n) = view n) :
    linksOf view (m.modify c g) = linksOf view m := by
  funext k
  rw [linksOf, OrdMap.lookup_modify, linksOf]
  split
  · rename_i hk
    rw [hk, Option.map_map]
    exact congrArg (Option.map · _) (funext hg)
  · rfl

/-- Changes every node from `c` upwards as far as `go` holds; `none` when the
fuel runs out or a node is missing. -/
def climb (view : N → T × List T) (go : T → Bool) (f : N → N) :
    Nat → T → OrdMap T N → Option (OrdMap T N)
  | 0, c, m => if go c then none else some m
  | fuel + 1, c, m =>
    if go c then
      (m.lookup c).bind fun n => climb view go f fuel (view (f n)).1 (m.insert c (f n))
    else some m

theorem linksOf_insert {n n' : N} (hc : m.lookup c = some n) (hn : view n' = view n) :
    linksOf view (m.insert c n') = linksOf view m := by
  funext k
  rw [linksOf, OrdMap.lookup_insert, linksOf]
  split
  · rename_i hk
    rw [hk, hc, Option.map_some, Option.map_some, hn]
  · rfl

variable [DecidableEq T]

/-- The nodes of the path are changed, each of them once. -/
theorem Tree.climb {root : T} {size fuel : Nat} {depth : T → Nat} {go : T → Bool} {g : N → N}
    (h : Tree root (linksOf view m) size depth) (hroot : go root = false)
    (hg : ∀ n, view (g n) = view n) (hc : go c = true → c ∈ m ∧ depth c < fuel) :
    ∃ n, climb view go g fuel c m = some n ∧ ∀ k, n.lookup k =
      if k ∈ path go (linksOf view m) fuel c then (m.lookup k).map g else m.lookup k := by
  induction fuel generalizing c m with
  | zero =>
    have hgo : go c = false := Bool.eq_false_iff.mpr fun hgo => absurd (hc hgo).2 (Nat.not_lt_zero _)
    exact ⟨m, by rw [Forest.climb, hgo, if_neg Bool.false_ne_true], fun k => rfl⟩
  | succ fuel ih =>
    rw [Forest.climb, path]
    cases hgo : go c with
    | false => exact ⟨m, rfl, fun k => rfl⟩
    | true =>
      obtain ⟨hmem, hfuel⟩ := hc hgo
      obtain ⟨n, hn⟩ := OrdMap.mem_iff.mp hmem
      have hl : linksOf view m c = some (view n) := by rw [linksOf, hn, Option.map_some]
      have hne : c ≠ root := by
        rintro rfl
        exact Bool.false_ne_true (hroot.symm.trans hgo)
      obtain ⟨hf, hdepth⟩ := h.father c _ _ hl hne
      have hlinks : linksOf view (m.insert c (g n)) = linksOf view m := linksOf_insert hn (hg n)
      obtain ⟨k, hk, hlookup⟩ := ih (hlinks ▸ h)
        fun _ => ⟨OrdMap.mem_insert.mpr (.inr (linksOf_isSome.mp hf)), by omega⟩
      -- the path goes on above `c`
      have hnot : c ∉ path go (linksOf view m) fuel (view n).1 := fun hmem =>
        absurd (h.depth_le hroot hmem) (by omega)
      refine ⟨k, ?_, fun x => ?_⟩
      · rw [if_pos rfl, hn, Option.bind_some, hg]
        exact hk
      · rw [hlookup, hlinks, if_pos rfl, hl, OrdMap.lookup_insert]
        by_cases hx : x = c
        · rw [hx, if_neg hnot, if_pos rfl, if_pos List.mem_cons_self, hn, Option.map_some]
        · rw [if_neg hx]
          simp only [List.mem_cons, hx, false_or]

variable (view) in
theorem linksOf_addLeaf {node : N} {push : N → N} (hc : c ∉ m) (hf : f ∈ m)
    (hnode : view node = (f, [])) (hpush : ∀ n, view (push n) = ((view n).1, (view n).2 ++ [c])) :
    linksOf view ((m.insert c node).modify f push) = addLeaf (linksOf view m) c f := by
  have hne : f ≠ c := fun he => hc (he ▸ hf)
  funext k
  simp only [linksOf, OrdMap.lookup_modify, OrdMap.lookup_insert, if_neg hne, addLeaf]
  by_cases hk : k = c
  · rw [if_neg (hk.symm ▸ Ne.symm hne), if_pos hk, if_pos hk, Option.map_some, hnode]
  · rw [if_neg hk, if_neg hk]
    split
    · rw [Option.map_map, Option.map_map]
      exact congrArg (Option.map · _) (funext hpush)
    · rfl

omit [DecidableEq T] in
theorem lookup_insertLeaf {node n : N} {push : N → N} (hc : c ∉ m) (hf : f ∈ m) {k : T}
    (h : ((m.insert c node).modify f push).lookup k = some n) :
    (k = c ∧ n = node) ∨ ∃ old, m.lookup k = some old ∧ (n = old ∨ n = push old) := by
  have hne : f ≠ c := fun he => hc (he ▸ hf)
  rw [OrdMap.lookup_modify, OrdMap.lookup_insert, OrdMap.lookup_insert, if_neg hne] at h
  split at h
  · rename_i hk
    obtain ⟨old, hold, rfl⟩ := Option.map_eq_some_iff.mp h
    exact .inr ⟨old, hk ▸ hold, .inr rfl⟩
  · split at h
    · rename_i hk
      cases h
      exact .inl ⟨hk, rfl⟩
    · exact .inr ⟨n, h, .inl rfl⟩

variable (view) in
theorem Tree.insertLeaf {root : T} {size : Nat} {depth : T → Nat}
    (h : Tree root (linksOf view m) size depth) {node : N} {push : N → N} (hc : c ∉ m) (hf : f ∈ m)
    (hnode : view node = (f, [])) (hpush : ∀ n, view (push n) = ((view n).1, (view n).2 ++ [c])) :
    Tree root (linksOf view ((m.insert c node).modify f push)) (size + 1)
      (Function.update depth c (depth f + 1)) := by
  obtain ⟨l, hl⟩ := linksOf_isSome.mpr hf
  rw [linksOf_addLeaf view hc hf hnode hpush]
  exact h.addLeaf (by rw [linksOf, OrdMap.lookup_eq_none.mpr hc, Option.map_none]) hl

end

end TextMining.Forest
