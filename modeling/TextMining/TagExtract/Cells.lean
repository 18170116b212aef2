import TextMining.Lib.Contingency
import TextMining.TagExtract.Posts
import TextMining.WeiboWordNet.Processor

/-!
# The cells of the chi-square test

Each post counts once for every type it lists. A term splits these incidences
in those with and those without it, a type in those of the type and the others.
-/

namespace TextMining.TagExtract

open Contingency (Table table)

-- ---------------------------------------------------------------------------
-- The table of the posts
-- ---------------------------------------------------------------------------

/-- The types that the posts list, each with the terms of its post. -/
def incidences (posts : List Post) : List (List UInt8 × List (List UInt8)) :=
  posts.flatMap fun p => p.types.map fun c => (c, p.terms)

def tableOf (posts : List Post) (t c : List UInt8) : Table :=
  table (fun x => x.2.contains t) (fun x => x.1 == c) (incidences posts)

def Table.cells (T : Table) : Cells := ⟨T.n11, T.n10, T.n01, T.n00⟩

def Together (posts : List Post) (t c : List UInt8) : Prop :=
  ∃ p ∈ posts, t ∈ p.terms ∧ c ∈ p.types

section
variable (posts : List Post) (t c : List UInt8)

theorem countP_incidences (f : List UInt8 × List (List UInt8) → Bool) :
    (incidences posts).countP f =
      (posts.map fun p => p.types.countP fun c => f (c, p.terms)).sum := by
  rw [incidences, List.countP_flatMap]
  simp only [Function.comp_def, List.countP_map]

theorem sum_columnsOf (f : List (List UInt8) → Nat) :
    ((columnsOf t posts).map f).sum =
      (posts.map fun p => if t ∈ p.terms then f p.types else 0).sum := by
  induction posts with
  | nil => rfl
  | cons p posts ih =>
    rw [columnsOf, List.filter_cons, List.map_cons, List.sum_cons, ← ih]
    split
    · rename_i h
      rw [if_pos (List.contains_iff_mem.mp h)]
      rfl
    · rename_i h
      rw [if_neg fun ht => h (List.contains_iff_mem.mpr ht), Nat.zero_add]
      rfl

variable {posts t c} in
theorem together_iff : Together posts t c ↔ ∃ types ∈ columnsOf t posts, c ∈ types := by
  rw [columnsOf]
  simp only [Together, List.mem_map, List.mem_filter, List.contains_iff_mem]
  constructor
  · rintro ⟨p, hp, ht, hc⟩
    exact ⟨p.types, ⟨p, ⟨hp, ht⟩, rfl⟩, hc⟩
  · rintro ⟨-, ⟨p, ⟨hp, ht⟩, rfl⟩, hc⟩
    exact ⟨p, hp, ht, hc⟩

theorem tableOf_both : (tableOf posts t c).n11 = ((columnsOf t posts).map (List.count c)).sum := by
  rw [sum_columnsOf, tableOf, table, countP_incidences]
  refine congrArg List.sum (List.map_congr_left fun p _ => ?_)
  split
  · rename_i h
    simp only [List.contains_iff_mem.mpr h, Bool.true_and]
    rfl
  · rename_i h
    simp only [Bool.eq_false_iff.mpr (mt List.contains_iff_mem.mp h), Bool.false_and, List.countP_false, Function.const_apply]

theorem tableOf_row : (tableOf posts t c).n11 + (tableOf posts t c).n10 =
    ((columnsOf t posts).map List.length).sum := by
  rw [tableOf, Contingency.table_row, countP_incidences, sum_columnsOf]
  refine congrArg List.sum (List.map_congr_left fun p _ => ?_)
  split
  · rename_i h
    simp only [List.contains_iff_mem.mpr h, List.countP_true]
  · rename_i h
    simp only [Bool.eq_false_iff.mpr (mt List.contains_iff_mem.mp h), List.countP_false, Function.const_apply]

theorem tableOf_column : (tableOf posts t c).n11 + (tableOf posts t c).n01 =
    (posts.map fun p => p.types.count c).sum := by
  rw [tableOf, Contingency.table_column, countP_incidences]
  rfl

theorem length_incidences : (incidences posts).length = (posts.map fun p => p.types.length).sum := by
  rw [incidences, List.length_flatMap]
  simp only [List.length_map]

theorem tableOf_total : ((tableOf posts t c).n11 + (tableOf posts t c).n10 +
    (tableOf posts t c).n01 + (tableOf posts t c).n00 : Nat) =
      (posts.map fun p => p.types.length).sum := by
  rw [← length_incidences]
  exact Contingency.table_total _ _ _

theorem recorded_le : recorded (columnsOf t posts) c ≤ (tableOf posts t c).n11 := by
  rw [tableOf_both]
  cases columnsOf t posts with
  | nil => exact Nat.zero_le _
  | cons first later =>
    rw [recorded, List.map_cons, List.sum_cons]
    exact Nat.add_le_add_right (Nat.min_le_right _ _) _

/-- The first post with the term lists the type once at most. -/
def ListedOnce : Prop := ∀ first ∈ (columnsOf t posts).head?, first.count c ≤ 1

theorem recorded_eq_iff :
    recorded (columnsOf t posts) c = (tableOf posts t c).n11 ↔ ListedOnce posts t c := by
  rw [tableOf_both, ListedOnce]
  cases columnsOf t posts with
  | nil => exact iff_of_true rfl fun first h => nomatch h
  | cons first later =>
    simp only [recorded, List.map_cons, List.sum_cons, List.head?_cons, Option.mem_some_iff,
      forall_eq', Nat.add_right_cancel_iff]
    exact ⟨fun he => he ▸ Nat.min_le_left _ _, Nat.min_eq_right⟩

-- ---------------------------------------------------------------------------
-- When the cells are the table
-- ---------------------------------------------------------------------------

/-- The numbers that make the cells are those of the table, and `float` holds
each result. -/
structure Exact : Prop where
  n11 : float (recorded (columnsOf t posts) c) = (tableOf posts t c).n11
  n10 : float (float ((tableOf posts t c).n11 + (tableOf posts t c).n10 : Nat) -
    (tableOf posts t c).n11) = (tableOf posts t c).n10
  n01 : float (((tableOf posts t c).n11 + (tableOf posts t c).n01 : Nat) -
    recorded (columnsOf (snprintf 64 t) posts) c) = (tableOf posts t c).n01
  n00 : float (float (float (float (incidences posts).length - (tableOf posts t c).n01) -
    (tableOf posts t c).n10) - (tableOf posts t c).n11) = (tableOf posts t c).n00

/-- A type is counted once in the first post of a term, and the name of the
record, the first 63 bytes of the term, has the same count. -/
def CountedAlike : Prop :=
  ListedOnce posts t c ∧
    recorded (columnsOf (snprintf 64 t) posts) c = (tableOf posts t c).n11

/-- Below 2 ^ 24 incidences no number is rounded. -/
theorem exact_iff (h : (incidences posts).length ≤ 2 ^ 24) :
    Exact posts t c ↔ CountedAlike posts t c := by
  have htotal := tableOf_total posts t c
  have hle := recorded_le posts t c
  have hcol := tableOf_column posts (snprintf 64 t) c
  rw [← tableOf_column posts t c] at hcol
  have hname := recorded_le posts (snprintf 64 t) c
  rw [← length_incidences] at htotal
  rw [CountedAlike, ← recorded_eq_iff]
  have hexact : ∀ z : Int, z.natAbs ≤ (incidences posts).length → float z = z :=
    fun z hz => float_of_le (hz.trans h)
  constructor
  · rintro ⟨h11, -, h01, -⟩
    rw [hexact _ (by omega)] at h11
    rw [hexact _ (by omega)] at h01
    omega
  · rintro ⟨h11, h01⟩
    refine ⟨?_, ?_, ?_, ?_⟩
    · rw [hexact _ (by omega), h11]
    · rw [hexact ((_ + _ : Nat) : Int) (by omega), hexact _ (by omega)]
      omega
    · rw [hexact _ (by omega)]
      omega
    · rw [hexact ((incidences posts).length : Int) (by omega),
        hexact ((incidences posts).length - (tableOf posts t c).n01 : Int) (by omega),
        hexact (_ - _ - _) (by omega), hexact _ (by omega)]
      omega

end

-- ---------------------------------------------------------------------------
-- The final loop
-- ---------------------------------------------------------------------------

def termStrings (posts : List Post) : List (List UInt8) :=
  posts.flatMap fun p => p.terms ++ p.terms.map (snprintf 64)

def typeNames (posts : List Post) : List (List UInt8) := posts.flatMap Post.types

section
variable (env : Env) (ord : IterOrder Int32 Nat) (posts : List Post)

structure VisitOf (t c : List UInt8) (visit : TermInfo × Σ _ : Int32, Nat) : Prop where
  together : Together posts t c
  record : (State.loadWeibo env posts).find env t = some visit.1
  type : visit.2.1 = hashType env c

/-- Each visit is for a term and a type of a post, and each of these is visited. -/
def Visited : Prop :=
  (∀ visit ∈ (State.loadWeibo env posts).visits ord, ∃ t c, VisitOf env posts t c visit) ∧
    ∀ t c, Together posts t c →
      ∃ visit ∈ (State.loadWeibo env posts).visits ord, VisitOf env posts t c visit

/-- The cells of each visit are the table of its term and its type, whose sum
is `m_weibo_num`. -/
def Contingent : Prop :=
  ∀ visit ∈ (State.loadWeibo env posts).visits ord, ∀ t c, VisitOf env posts t c visit →
    (State.loadWeibo env posts).cells visit.1 visit.2 = Table.cells (tableOf posts t c) ∧
      (tableOf posts t c).n11 + (tableOf posts t c).n10 + (tableOf posts t c).n01 +
        (tableOf posts t c).n00 = (State.loadWeibo env posts).mWeiboNum

variable {env posts}
  (hterms : ∀ t ∈ termStrings posts, ∀ u ∈ termStrings posts,
    env.stlHashString t = env.stlHashString u → t = u)
  (hnames : ∀ c ∈ typeNames posts, ∀ d ∈ typeNames posts,
    hashType env c = hashType env d → c = d)
include hterms hnames

theorem loadWeibo_counters : Inv env (· ∈ termStrings posts) (· ∈ typeNames posts)
    (State.loadWeibo env posts) posts :=
  loadWeibo_inv (fun t u ht hu => hterms t ht u hu) (fun c d hc hd => hnames c hc d hd) posts
    (fun p hp _ ht => List.mem_flatMap.mpr ⟨p, hp, List.mem_append_left _ ht⟩)
    fun p hp _ hc => List.mem_flatMap.mpr ⟨p, hp, hc⟩

omit hterms hnames in
theorem mem_visits {visit : TermInfo × Σ _ : Int32, Nat} {s : State} :
    visit ∈ s.visits ord ↔ (∃ z : Nat, s.vTermInfo[z]? = some visit.1) ∧
      visit.1.termFreqBin.lookup visit.2.1 = some visit.2.2 := by
  simp only [State.visits, List.mem_flatMap, List.mem_map, Prod.exists, List.mk_mem_zipIdx_iff_getElem?]
  constructor
  · rintro ⟨info, z, hz, e, he, rfl⟩
    exact ⟨⟨z, hz⟩, ord.mem_walk.mp he⟩
  · rintro ⟨⟨z, hz⟩, he⟩
    exact ⟨visit.1, z, hz, visit.2, ord.mem_walk.mpr he, rfl⟩

theorem visited : Visited env ord posts := by
  have hinv := loadWeibo_counters hterms hnames
  refine ⟨fun visit hv => ?_, fun t c htc => ?_⟩
  · obtain ⟨⟨z, hz⟩, he⟩ := (mem_visits ord).mp hv
    obtain ⟨hlt, -⟩ := List.getElem?_eq_some_iff.mp hz
    obtain ⟨t, ht, hindex⟩ := hinv.registered.onto z hlt
    have hfind : (State.loadWeibo env posts).find env t = some visit.1 := by
      rw [State.find, Registry.find, hindex]
      exact hz
    have hcounted := hinv.counted t ht
    have hne : columnsOf t posts ≠ [] := by
      intro h
      cases hfind.symm.trans (hcounted.absent h)
    obtain ⟨info, hinfo, htallied⟩ := hcounted.present hne
    cases hfind.symm.trans hinfo
    obtain ⟨types, htypes, c, hc, hhash⟩ := (htallied.keys visit.2.1).mp (HashMap.mem_of_lookup he)
    exact ⟨t, c, together_iff.mpr ⟨types, htypes, hc⟩, hfind, hhash.symm⟩
  · obtain ⟨types, htypes, hc⟩ := together_iff.mp htc
    obtain ⟨p, hp, ht, hpc⟩ := htc
    have hcounted := hinv.counted t
      (List.mem_flatMap.mpr ⟨p, hp, List.mem_append_left _ ht⟩)
    obtain ⟨info, hinfo, htallied⟩ := hcounted.present (List.ne_nil_of_mem htypes)
    obtain ⟨n, hn⟩ := HashMap.exists_of_mem ((htallied.keys _).mpr ⟨types, htypes, c, hc, rfl⟩)
    obtain ⟨z, -, hz⟩ := Option.bind_eq_some_iff.mp hinfo
    exact ⟨(info, ⟨hashType env c, n⟩), (mem_visits ord).mpr ⟨⟨z, hz⟩, hn⟩,
      ⟨p, hp, ht, hpc⟩, hinfo, rfl⟩

theorem cells_eq_iff {t c : List UInt8} {visit : TermInfo × Σ _ : Int32, Nat}
    (hv : visit ∈ (State.loadWeibo env posts).visits ord) (h : VisitOf env posts t c visit) :
    (State.loadWeibo env posts).cells visit.1 visit.2 = Table.cells (tableOf posts t c) ↔
      Exact posts t c := by
  have hinv := loadWeibo_counters hterms hnames
  obtain ⟨types, htypes, hc⟩ := together_iff.mp h.together
  obtain ⟨p, hp, ht, hpc⟩ := h.together
  have hin : t ∈ p.terms ++ p.terms.map (snprintf 64) := List.mem_append_left _ ht
  have hname : snprintf 64 t ∈ p.terms ++ p.terms.map (snprintf 64) :=
    List.mem_append_right _ (List.mem_map_of_mem ht)
  obtain ⟨info, hinfo, htallied⟩ := (hinv.counted t (List.mem_flatMap.mpr ⟨p, hp, hin⟩)).present
    (List.ne_nil_of_mem htypes)
  cases h.record.symm.trans hinfo
  -- the counters that the cells are made of
  have hbin : visit.2.2 = recorded (columnsOf t posts) c := by
    rw [← htallied.bins c (List.mem_flatMap.mpr ⟨p, hp, hpc⟩), TermInfo.bin, ← h.type,
      ((mem_visits ord).mp hv).2, Option.getD_some]
  have htotal := htallied.total.trans (tableOf_row posts t c).symm
  have htype := (hinv.typeNum c).trans (tableOf_column posts t c).symm
  have hnum := (hinv.counted _ (List.mem_flatMap.mpr ⟨p, hp, hname⟩)).num c
  have hweibo := hinv.weiboNum.trans (length_incidences posts).symm
  simp only [State.cells, Table.cells, h.type, hinv.typeName p hp c hpc, Option.getD_some,
    htallied.termstr, hbin, htotal, htype, hnum, hweibo, Cells.mk.injEq]
  constructor
  · rintro ⟨h11, h10, h01, h00⟩
    rw [h11] at h10
    rw [h11, h10, h01] at h00
    exact ⟨h11, h10, h01, h00⟩
  · rintro ⟨h11, h10, h01, h00⟩
    rw [h11, h10, h01]
    exact ⟨rfl, rfl, rfl, h00⟩

/-- The final loop visits the terms and types of the posts, and its cells are
their tables exactly when every type is counted alike, as long as no number
needs rounding. -/
theorem contingent_iff : Visited env ord posts ∧
    (Contingent env ord posts ↔ ∀ t c, Together posts t c → Exact posts t c) ∧
    ((incidences posts).length ≤ 2 ^ 24 →
      (Contingent env ord posts ↔ ∀ t c, Together posts t c → CountedAlike posts t c)) := by
  have hvisited := visited ord hterms hnames
  have hexact : Contingent env ord posts ↔ ∀ t c, Together posts t c → Exact posts t c := by
    constructor
    · intro hcont t c htc
      obtain ⟨visit, hv, hof⟩ := hvisited.2 t c htc
      exact (cells_eq_iff ord hterms hnames hv hof).mp (hcont visit hv t c hof).1
    · intro hall visit hv t c hof
      refine ⟨(cells_eq_iff ord hterms hnames hv hof).mpr (hall t c hof.together), ?_⟩
      exact (tableOf_total posts t c).trans (loadWeibo_counters hterms hnames).weiboNum.symm
  refine ⟨hvisited, hexact, fun hsize => hexact.trans ?_⟩
  exact forall₂_congr fun t c => imp_congr_right fun _ => exact_iff posts t c hsize

end

/-- `__stl_hash_string`, and no term is bad. -/
def stlEnv : Env := ⟨fun s => (WeiboWordNet.stlHashString s).toInt32, fun _ => false⟩

def tea : WordItem := ⟨text "tea!", 10, 0, by decide⟩

def cake : WordItem := ⟨text "cake", 10, 0, by decide⟩

def teaPosts : List Post :=
  [⟨[text "drink", text "food"], some ([tea, cake], []), by decide⟩,
   ⟨[text "drink"], some ([tea], []), by decide⟩]

theorem contingent_iff_tea : Visited stlEnv (.held Int32 Nat) teaPosts ∧
    (Contingent stlEnv (.held Int32 Nat) teaPosts ↔
      ∀ t c, Together teaPosts t c → Exact teaPosts t c) ∧
    ((incidences teaPosts).length ≤ 2 ^ 24 →
      (Contingent stlEnv (.held Int32 Nat) teaPosts ↔
        ∀ t c, Together teaPosts t c → CountedAlike teaPosts t c)) :=
  contingent_iff (.held Int32 Nat) (by decide +kernel) (by decide +kernel)

-- ---------------------------------------------------------------------------
-- A type that is listed twice
-- ---------------------------------------------------------------------------

def twicePosts : List Post := [⟨[text "a", text "a"], some ([tea], []), by decide⟩]

/-- The only visit of a post that lists its type twice has -1 in the last cell. -/
theorem not_contingent_twice :
    (∀ t ∈ termStrings twicePosts, ∀ u ∈ termStrings twicePosts,
      stlEnv.stlHashString t = stlEnv.stlHashString u → t = u) ∧
    (∀ c ∈ typeNames twicePosts, ∀ d ∈ typeNames twicePosts,
      hashType stlEnv c = hashType stlEnv d → c = d) ∧
    ¬Contingent stlEnv (.held Int32 Nat) twicePosts := by
  refine ⟨by decide +kernel, by decide +kernel, fun h => ?_⟩
  have hcells : (State.loadWeibo stlEnv twicePosts).vTermInfo.map
      (fun info => ((State.loadWeibo stlEnv twicePosts).cells info ⟨97, 1⟩,
        info.termFreqBin.lookup 97)) = [(⟨1, 1, 1, -1⟩, some 1)] := by decide +kernel
  have hindex : (State.loadWeibo stlEnv twicePosts).mTermIndex.lookup
      (stlEnv.stlHashString (text "tea!")) = some 0 := by decide +kernel
  have htype : (97 : Int32) = hashType stlEnv (text "a") := by decide +kernel
  obtain ⟨info, rest, hinfo, hfirst, -⟩ := List.map_eq_cons_iff.mp hcells
  obtain ⟨hcell, hbin⟩ := Prod.mk.inj hfirst
  have hzero : (State.loadWeibo stlEnv twicePosts).vTermInfo[0]? = some info := by
    rw [hinfo]
    rfl
  have hfind : (State.loadWeibo stlEnv twicePosts).find stlEnv (text "tea!") = some info := by
    rw [State.find, Registry.find, hindex]
    exact hzero
  have htable := (h (info, ⟨97, 1⟩) ((mem_visits _).mpr ⟨⟨0, hzero⟩, hbin⟩) (text "tea!") (text "a")
    ⟨⟨_, List.mem_singleton_self _, by decide +kernel, by decide +kernel⟩, hfind, htype⟩).1
  rw [show (State.loadWeibo stlEnv twicePosts).cells info ⟨97, 1⟩ = ⟨1, 1, 1, -1⟩ from hcell]
    at htable
  revert htable
  decide +kernel

end TextMining.TagExtract
