import TextMining.AhoCorasick.Match
import TextMining.LandMark.Ancestors

/-!
# Homonyms in the landmark search

The table has a row for every id, the automaton one id for every name, that of
the last row with it. A row is found when the last row of its name belongs to
the city too, or when its name is part of another name that is found.
-/

namespace TextMining.LandMark

open AhoCorasick

-- ---------------------------------------------------------------------------
-- Loading
-- ---------------------------------------------------------------------------

def items (cities landmarks : List Row) : List StrictItem :=
  cities.filterMap cityItem ++ landmarks.filterMap landmarkItem

def word (l : StrictItem) : List UInt8 × Int := (l.name, l.id.toInt)

/-- The landmark table and automaton after the rows. -/
structure Loaded (s : State) (rows : List StrictItem) : Prop where
  acCity : s.acCity.Trie
  acLM : s.acLM = clear.insertAll (rows.map word)
  table : ∀ id, s.mLandmarkInfo.lookup id = rows.find? fun l => l.id = id

theorem loaded_empty : Loaded State.empty [] := ⟨trie_clear, rfl, fun _ => rfl⟩

theorem Loaded.not_mem {s : State} {rows : List StrictItem} (h : Loaded s rows) {id : Int32}
    (hid : id ∉ rows.map StrictItem.id) : id ∉ s.mLandmarkInfo := by
  rw [← AList.lookup_eq_none, h.table, List.find?_eq_none]
  intro l hl he
  exact hid (List.mem_map.mpr ⟨l, hl, of_decide_eq_true he⟩)

theorem Loaded.add {s s' : State} {rows : List StrictItem} (h : Loaded s rows) {item : StrictItem}
    (hid : item.id ∉ rows.map StrictItem.id) (hcity : s'.acCity.Trie) (hac : s'.acLM = s.acLM.insert item.name item.id.toInt)
    (htable : s'.mLandmarkInfo = s.mLandmarkInfo.insertNew item.id item) :
    Loaded s' (rows ++ [item]) where
  acCity := hcity
  acLM := by
    rw [hac, h.acLM, AhoCorasick.insertAll, AhoCorasick.insertAll, List.map_append,
      List.foldl_append]
    rfl
  table := by
    intro id
    rw [htable, HashMap.insertNew, if_neg (h.not_mem hid), List.find?_append]
    cases decEq id item.id with
    | isTrue he =>
      subst he
      have hnone : rows.find? (fun l => decide (l.id = item.id)) = none := by
        rw [← h.table, AList.lookup_eq_none]
        exact h.not_mem hid
      rw [AList.lookup_insert, hnone]
      simp
    | isFalse he =>
      rw [AList.lookup_insert_ne he, h.table, List.find?_singleton]
      simp [Ne.symm he]

theorem Loaded.cities {s : State} {rows : List StrictItem} (h : Loaded s rows) (cities : List Row)
    (hid : ((rows ++ cities.filterMap cityItem).map StrictItem.id).Nodup) :
    Loaded (cities.foldl tdProcessLineCity s) (rows ++ cities.filterMap cityItem) := by
  induction cities generalizing s rows with
  | nil => simpa using h
  | cons row cities ih =>
    rw [List.foldl_cons]
    cases hrow : cityItem row with
    | none =>
      rw [List.filterMap_cons_none hrow] at hid ⊢
      rw [tdProcessLineCity, hrow]
      exact ih h hid
    | some item =>
      rw [List.filterMap_cons_some hrow, List.append_cons] at hid ⊢
      refine ih (h.add ?_ ?_ ?_ ?_) hid
      · rw [List.map_append, List.map_append, List.append_assoc] at hid
        exact fun hm => (List.nodup_append.mp hid).2.2 item.id hm item.id (by simp) rfl
      · rw [tdProcessLineCity, hrow]
        exact (insert_spec h.acCity item.name item.id.toInt).1
      · rw [tdProcessLineCity, hrow]
      · rw [tdProcessLineCity, hrow]

theorem Loaded.landmarks {s : State} {rows : List StrictItem} (h : Loaded s rows)
    (landmarks : List Row)
    (hid : ((rows ++ landmarks.filterMap landmarkItem).map StrictItem.id).Nodup) :
    Loaded (landmarks.foldl tdProcessLineLM s) (rows ++ landmarks.filterMap landmarkItem) := by
  induction landmarks generalizing s rows with
  | nil => simpa using h
  | cons row landmarks ih =>
    rw [List.foldl_cons]
    cases hrow : landmarkItem row with
    | none =>
      rw [List.filterMap_cons_none hrow] at hid ⊢
      rw [tdProcessLineLM, hrow]
      exact ih h hid
    | some item =>
      rw [List.filterMap_cons_some hrow, List.append_cons] at hid ⊢
      have hnew : item.id ∉ rows.map StrictItem.id := by
        rw [List.map_append, List.map_append, List.append_assoc] at hid
        exact fun hm => (List.nodup_append.mp hid).2.2 item.id hm item.id (by simp) rfl
      have hstep : tdProcessLineLM s row =
          { s with
            mLandmarkInfo := s.mLandmarkInfo.insertNew item.id item
            acLM := s.acLM.insert item.name item.id.toInt } := by
        simp only [tdProcessLineLM, hrow, h.not_mem hnew, if_false]
      rw [hstep]
      exact ih (h.add hnew h.acCity rfl rfl) hid

-- ---------------------------------------------------------------------------
-- Writing names
-- ---------------------------------------------------------------------------

/-- The names, each followed by a blank, without those that are written
already. -/
def writeNames (names : List (List UInt8)) (str : List UInt8) : List UInt8 :=
  names.foldl (fun str name => if name <:+: str then str else str ++ name ++ [32]) str

theorem infix_writeNames {names : List (List UInt8)} {str w : List UInt8} (h : w <:+: str) :
    w <:+: writeNames names str := by
  induction names generalizing str with
  | nil => exact h
  | cons name names ih =>
    rw [writeNames, List.foldl_cons]
    refine ih ?_
    split
    · exact h
    · rw [List.append_assoc]
      exact h.trans (List.prefix_append _ _).isInfix

theorem mem_infix_writeNames {names : List (List UInt8)} {name : List UInt8} (h : name ∈ names)
    (str : List UInt8) : name <:+: writeNames names str := by
  induction names generalizing str with
  | nil => exact absurd h List.not_mem_nil
  | cons n names ih =>
    rw [writeNames, List.foldl_cons]
    rcases List.mem_cons.mp h with rfl | h
    · refine infix_writeNames ?_
      split
      · assumption
      · exact List.infix_append _ _ _
    · exact ih h _

theorem infix_of_infix_append {w l r : List UInt8} {b : UInt8} (hb : b ∉ w)
    (h : w <:+: l ++ b :: r) : w <:+: l ∨ w <:+: r := by
  obtain ⟨u, v, huv⟩ := h
  rw [List.append_assoc] at huv
  rcases List.append_eq_append_iff.mp huv with ⟨t, ht, hw⟩ | ⟨t, ht, hw⟩
  · rcases List.append_eq_append_iff.mp hw with ⟨x, hx, -⟩ | ⟨x, hx, hbr⟩
    · exact .inl ⟨u, x, by rw [ht, hx, List.append_assoc]⟩
    · cases x with
      | nil =>
        rw [List.append_nil] at hx
        exact .inl ⟨u, [], by rw [ht, hx, List.append_nil]⟩
      | cons c x =>
        obtain ⟨rfl, -⟩ := List.cons_eq_cons.mp hbr
        exact absurd (hx ▸ List.mem_append_right t List.mem_cons_self) hb
  · cases t with
    | nil =>
      cases w with
      | nil => exact .inl (List.nil_infix)
      | cons c w =>
        obtain ⟨rfl, -⟩ := List.cons_eq_cons.mp hw
        exact absurd List.mem_cons_self hb
    | cons c t =>
      obtain ⟨-, rfl⟩ := List.cons_eq_cons.mp hw
      exact .inr ⟨t, v, List.append_assoc t w v⟩

theorem infix_of_infix_writeNames {names : List (List UInt8)} {str w : List UInt8}
    (hb : (32 : UInt8) ∉ w) (hs : str = [] ∨ ∃ s, str = s ++ [32])
    (h : w <:+: writeNames names str) : w <:+: str ∨ ∃ name ∈ names, w <:+: name := by
  induction names generalizing str with
  | nil => exact .inl h
  | cons name names ih =>
    rw [writeNames, List.foldl_cons] at h
    split at h
    · rcases ih hs h with h | ⟨n, hn, h⟩
      · exact .inl h
      · exact .inr ⟨n, List.mem_cons_of_mem _ hn, h⟩
    · rcases ih (.inr ⟨_, rfl⟩) h with h | ⟨n, hn, h⟩
      · rcases infix_of_infix_append hb h with h | h
        · rcases hs with rfl | ⟨s, rfl⟩
          · exact .inr ⟨name, List.mem_cons_self, h⟩
          · rw [List.append_assoc] at h
            rcases infix_of_infix_append hb h with h | h
            · exact .inl (h.trans (List.prefix_append s [32]).isInfix)
            · exact .inr ⟨name, List.mem_cons_self, h⟩
        · rw [List.infix_nil.mp h]
          exact .inl List.nil_infix
      · exact .inr ⟨n, List.mem_cons_of_mem _ hn, h⟩

-- ---------------------------------------------------------------------------
-- The rows that are found
-- ---------------------------------------------------------------------------

/-- The row is the last one loaded with its name. -/
def LastOfName (rows : List StrictItem) (l : StrictItem) : Prop :=
  ∃ before after, rows = before ++ l :: after ∧ ∀ x ∈ after, x.name ≠ l.name

theorem lastOfName_cons {x l : StrictItem} {rows : List StrictItem} :
    LastOfName (x :: rows) l ↔ LastOfName rows l ∨ (l = x ∧ ∀ y ∈ rows, y.name ≠ x.name) := by
  constructor
  · rintro ⟨before, after, he, hlast⟩
    cases before with
    | nil =>
      obtain ⟨rfl, rfl⟩ := List.cons_eq_cons.mp he
      exact .inr ⟨rfl, hlast⟩
    | cons y before =>
      obtain ⟨-, rfl⟩ := List.cons_eq_cons.mp he
      exact .inl ⟨before, after, rfl, hlast⟩
  · rintro (⟨before, after, rfl, hlast⟩ | ⟨rfl, hlast⟩)
    · exact ⟨x :: before, after, rfl, hlast⟩
    · exact ⟨[], rows, rfl, hlast⟩

theorem lastId_word {rows : List StrictItem} {w : List UInt8} {i : Int} :
    lastId (rows.map word) w = some i ↔ ∃ l, LastOfName rows l ∧ l.name = w ∧ l.id.toInt = i := by
  induction rows with
  | nil =>
    simp only [List.map_nil, lastId, reduceCtorEq, false_iff, not_exists]
    rintro l ⟨⟨before, after, he, -⟩, -⟩
    exact absurd he (by simp)
  | cons x rows ih =>
    rw [List.map_cons, lastId_cons_eq_some, ih, lastId_eq_none, List.forall_mem_map]
    simp only [lastOfName_cons, word]
    constructor
    · rintro (⟨l, hl, hw, hi⟩ | ⟨rfl, hi, hnone⟩)
      · exact ⟨l, .inl hl, hw, hi⟩
      · exact ⟨x, .inr ⟨rfl, hnone⟩, rfl, hi⟩
    · rintro ⟨l, hl | ⟨rfl, hnone⟩, hw, hi⟩
      · exact .inl ⟨l, hl, hw, hi⟩
      · exact .inr ⟨hw, hi, hw ▸ hnone⟩

theorem LastOfName.mem {rows : List StrictItem} {l : StrictItem} (h : LastOfName rows l) :
    l ∈ rows := by
  obtain ⟨before, after, rfl, -⟩ := h
  exact List.mem_append_right before List.mem_cons_self

section
variable {s : State} {rows : List StrictItem}

def Belongs (s : State) (cityId : Int32) (l : StrictItem) : Prop :=
  (isFatherSon cityId l.id s.mLandmarkInfo).1 = true

instance (s : State) (cityId : Int32) (l : StrictItem) : Decidable (Belongs s cityId l) :=
  inferInstanceAs (Decidable (_ = true))

theorem Loaded.get (h : Loaded s rows) (hid : (rows.map StrictItem.id).Nodup) {l : StrictItem}
    (hl : l ∈ rows) : Table.get s.mLandmarkInfo l.id = l := by
  have hfind : rows.find? (fun x => decide (x.id = l.id)) = some l := by
    cases hf : rows.find? (fun x => decide (x.id = l.id)) with
    | none => exact absurd (decide_eq_true rfl) (List.find?_eq_none.mp hf l hl)
    | some x =>
      have hx : x.id = l.id := by simpa using List.find?_some hf
      rw [List.inj_on_of_nodup_map hid (List.mem_of_find?_eq_some hf) hl hx]
  rw [Table.get, h.table, hfind, Option.getD_some]

theorem lmStr_foldl (h : Loaded s rows) (hid : (rows.map StrictItem.id).Nodup) (cityId : Int32)
    {matched : List StrictItem} (hmatched : ∀ l ∈ matched, l ∈ rows) {acc : Found}
    (hacc : ∀ k, Table.get acc.mLandmarkInfo k = Table.get s.mLandmarkInfo k) :
    ((matched.map fun l => l.id.toInt).foldl (landmarkStep cityId) acc).lmStr =
      writeNames ((matched.filter fun l => Belongs s cityId l).map StrictItem.name) acc.lmStr := by
  induction matched generalizing acc with
  | nil => rfl
  | cons l matched ih =>
    rw [List.map_cons, List.foldl_cons]
    have hl : Table.get acc.mLandmarkInfo l.id = l :=
      (hacc l.id).trans (h.get hid (hmatched l List.mem_cons_self))
    have hson : (isFatherSon cityId l.id (Table.touch acc.mLandmarkInfo l.id)).1 = true ↔
        Belongs s cityId l := by
      rw [Belongs, isFatherSon_congr fun k => (get_touch _ l.id k).trans (hacc k)]
    have hstep : ∀ k, Table.get (landmarkStep cityId acc l.id.toInt).mLandmarkInfo k =
        Table.get s.mLandmarkInfo k := by
      intro k
      unfold landmarkStep
      simp only
      split
      · rw [get_touch, get_isFatherSon, get_touch, hacc]
      · rw [get_isFatherSon, get_touch, hacc]
    rw [ih (fun x hx => hmatched x (List.mem_cons_of_mem _ hx)) hstep]
    unfold landmarkStep
    simp only [Int32.ofInt_toInt, get_touch, hl, get_isFatherSon]
    cases hb : (isFatherSon cityId l.id (Table.touch acc.mLandmarkInfo l.id)).1 with
    | true =>
      have hbl : Belongs s cityId l := hson.mp hb
      simp only [List.filter_cons, hbl, decide_true, if_true, List.map_cons]
      rfl
    | false =>
      have hbl : ¬ Belongs s cityId l := fun hbl => Bool.false_ne_true (hb ▸ hson.mpr hbl)
      simp only [List.filter_cons, hbl, decide_false, Bool.false_eq_true, if_false]

def Qualifies (s : State) (cityId : Int32) (nameDes : List UInt8) (l : StrictItem) : Prop :=
  l.name <:+: cstr nameDes ∧ Belongs s cityId l

/-- What the loop finds, as a text of names of rows. -/
theorem findLandmarks_eq (h : Loaded s rows) (hid : (rows.map StrictItem.id).Nodup)
    (hpos : ∀ l ∈ rows, 0 < l.id) (A : AhoCorasick) {B : AhoCorasick}
    (hB : s.acLM.buildAutomata = some B) (cityId : Int32) (nameDes : List UInt8) :
    ∃ found names, findLandmarks { s with acCity := A, acLM := B } cityId nameDes = some found ∧
      found.lmStr = writeNames names [] ∧
      ∀ name, name ∈ names ↔ ∃ l, LastOfName rows l ∧ Qualifies s cityId nameDes l ∧
        l.name ≠ [] ∧ l.name = name := by
  obtain ⟨htrie, -, hidAt⟩ := insertAll_spec trie_clear (rows.map word)
  rw [← h.acLM] at htrie hidAt
  obtain ⟨B', S, hB', hS, hmem⟩ := getMatch_build htrie (cstr nameDes)
  obtain rfl : B = B' := Option.some.inj (hB.symm.trans hB')
  have hrow : ∀ i, i ∈ S ↔ ∃ l, LastOfName rows l ∧ l.name ≠ [] ∧ l.name <:+: cstr nameDes ∧
      l.id.toInt = i := by
    intro i
    simp only [hmem, hidAt, idAt_clear]
    constructor
    · rintro ⟨hi, w, hne, hw, hlast⟩
      cases hl : lastId (rows.map word) w with
      | none => exact absurd (by rw [← hlast, hl]; rfl) hi
      | some j =>
        rw [hl, Option.getD_some] at hlast
        subst hlast
        obtain ⟨l, hlast, rfl, hid⟩ := lastId_word.mp hl
        exact ⟨l, hlast, hne, hw, hid⟩
    · rintro ⟨l, hlast, hne, hw, rfl⟩
      refine ⟨fun he => ?_, l.name, hne, hw, by rw [lastId_word.mpr ⟨l, hlast, rfl, rfl⟩]; rfl⟩
      have hp := Int32.lt_iff_toInt_lt.mp (hpos l hlast.mem)
      rw [he] at hp
      exact absurd hp (by decide)
  have hback : ∀ i ∈ S.elems, (Table.get s.mLandmarkInfo (Int32.ofInt i)).id.toInt = i ∧
      Table.get s.mLandmarkInfo (Int32.ofInt i) ∈ rows := by
    intro i hi
    obtain ⟨l, hlast, -, -, rfl⟩ := (hrow i).mp hi
    rw [Int32.ofInt_toInt, h.get hid hlast.mem]
    exact ⟨rfl, hlast.mem⟩
  have helems : S.elems = (S.elems.map fun i => Table.get s.mLandmarkInfo (Int32.ofInt i)).map
      fun l => l.id.toInt := by
    rw [List.map_map]
    conv_lhs => rw [← List.map_id S.elems]
    exact List.map_congr_left fun i hi => (hback i hi).1.symm
  generalize hms : (S.elems.map fun i => Table.get s.mLandmarkInfo (Int32.ofInt i)) = matched
    at helems
  have hmatched : ∀ l, l ∈ matched ↔ LastOfName rows l ∧ l.name ≠ [] ∧ l.name <:+: cstr nameDes := by
    intro l
    rw [← hms, List.mem_map]
    constructor
    · rintro ⟨i, hi, rfl⟩
      obtain ⟨l, hlast, hne, hw, rfl⟩ := (hrow i).mp hi
      rw [Int32.ofInt_toInt, h.get hid hlast.mem]
      exact ⟨hlast, hne, hw⟩
    · rintro ⟨hlast, hne, hw⟩
      refine ⟨l.id.toInt, (hrow _).mpr ⟨l, hlast, hne, hw, rfl⟩, ?_⟩
      rw [Int32.ofInt_toInt, h.get hid hlast.mem]
  refine ⟨S.elems.foldl (landmarkStep cityId) ⟨[], 0, s.mLandmarkInfo⟩,
    (matched.filter fun l => Belongs s cityId l).map StrictItem.name, ?_, ?_, fun name => ?_⟩
  · simp only [findLandmarks, hS]
    rfl
  · rw [helems]
    exact lmStr_foldl h hid cityId (fun l hl => ((hmatched l).mp hl).1.mem) fun _ => rfl
  · simp only [List.mem_map, List.mem_filter, hmatched, decide_eq_true_eq]
    constructor
    · rintro ⟨l, ⟨⟨hlast, hne, hw⟩, hb⟩, rfl⟩
      exact ⟨l, hlast, ⟨hw, hb⟩, hne, rfl⟩
    · rintro ⟨l, hlast, ⟨hw, hb⟩, hne, rfl⟩
      exact ⟨l, ⟨⟨hlast, hne, hw⟩, hb⟩, rfl⟩

end

-- ---------------------------------------------------------------------------
-- No row is lost
-- ---------------------------------------------------------------------------

/-- Every row that qualifies has its name in the landmark text. -/
def NoneLost (s : State) (rows : List StrictItem) (cityId : Int32) (nameDes : List UInt8) : Prop :=
  ∃ found, findLandmarks s cityId nameDes = some found ∧
    ∀ l ∈ rows, Qualifies s cityId nameDes l → l.name <:+: found.lmStr

/-- Every row that qualifies has a name that is part of the name of a row that
qualifies and is the last one of its name. -/
def Covered (s : State) (rows : List StrictItem) (cityId : Int32) (nameDes : List UInt8) : Prop :=
  ∀ l ∈ rows, Qualifies s cityId nameDes l → l.name = [] ∨
    ∃ l', LastOfName rows l' ∧ Qualifies s cityId nameDes l' ∧ l.name <:+: l'.name

/-- Rows with distinct positive ids: no row is lost if the rows are covered,
and, for names without a blank, only then. -/
theorem noneLost_iff (cities landmarks : List Row)
    (hid : ((items cities landmarks).map StrictItem.id).Nodup)
    (hpos : ∀ l ∈ items cities landmarks, 0 < l.id) :
    ∃ s, loadInfo cities landmarks = some s ∧ ∀ cityId nameDes,
      (Covered s (items cities landmarks) cityId nameDes →
        NoneLost s (items cities landmarks) cityId nameDes) ∧
      ((∀ l ∈ items cities landmarks, Qualifies s cityId nameDes l → 32 ∉ l.name) →
        (NoneLost s (items cities landmarks) cityId nameDes ↔
          Covered s (items cities landmarks) cityId nameDes)) := by
  have hcities : Loaded (cities.foldl tdProcessLineCity State.empty) (cities.filterMap cityItem) :=
    loaded_empty.cities cities (by
      rw [items, List.map_append] at hid
      exact (List.nodup_append.mp hid).1)
  have hloaded := hcities.landmarks landmarks hid
  generalize hs : landmarks.foldl tdProcessLineLM (cities.foldl tdProcessLineCity State.empty) = s
    at hloaded
  have htrie : s.acLM.Trie := hloaded.acLM ▸ (insertAll_spec trie_clear _).1
  obtain ⟨acCity, -, hcity, -, -⟩ := getMatch_build hloaded.acCity []
  obtain ⟨acLM, -, hlm, -, -⟩ := getMatch_build htrie []
  refine ⟨{ s with acCity, acLM }, ?_, fun cityId nameDes => ?_⟩
  · simp only [loadInfo, hs, hcity, hlm]
    rfl
  · obtain ⟨found, names, hfound, hstr, hnames⟩ :=
      findLandmarks_eq hloaded hid hpos acCity hlm cityId nameDes
    have hto : Covered { s with acCity, acLM } (items cities landmarks) cityId nameDes →
        NoneLost { s with acCity, acLM } (items cities landmarks) cityId nameDes := by
      intro hc
      refine ⟨found, hfound, fun l hl hq => ?_⟩
      rcases hc l hl hq with hnil | ⟨l', hlast, hq', hsub⟩
      · rw [hnil]
        exact List.nil_infix
      · by_cases hne : l'.name = []
        · rw [hne, List.infix_nil] at hsub
          rw [hsub]
          exact List.nil_infix
        · rw [hstr]
          exact hsub.trans (mem_infix_writeNames ((hnames _).mpr ⟨l', hlast, hq', hne, rfl⟩) [])
    refine ⟨hto, fun hblank => ⟨?_, hto⟩⟩
    rintro ⟨found', hfound', hall⟩ l hl hq
    obtain rfl : found = found' := Option.some.inj (hfound.symm.trans hfound')
    have hin := hall l hl hq
    rw [hstr] at hin
    rcases infix_of_infix_writeNames (hblank l hl hq) (.inl rfl) hin with hin | ⟨name, hname, hin⟩
    · exact .inl (List.infix_nil.mp hin)
    · obtain ⟨l', hlast, hq', -, rfl⟩ := (hnames name).mp hname
      exact .inr ⟨l', hlast, hq', hin⟩

def row (s : String) : Row := ⟨text s, fun _ => 0⟩

def twoCities : List Row := [row "bjbj\t1\t0\t2\r", row "shsh\t2\t0\t2\r"]

/-- A landmark of the first city, and one of the same name in the second. -/
def twoParks : List Row := [row "park\t11\t1\t3\r", row "park\t12\t2\t3\r"]

theorem items_twoParks : items twoCities twoParks =
    [⟨1, 0, text "bjbj", 2⟩, ⟨2, 0, text "shsh", 2⟩, ⟨11, 1, text "park", 3⟩,
      ⟨12, 2, text "park", 3⟩] := by
  decide +kernel

/-- A deal in the second city, whose park is the last one loaded. -/
theorem noneLost_secondCity : ∃ s, loadInfo twoCities twoParks = some s ∧
    NoneLost s (items twoCities twoParks) 2 (text "park") := by
  obtain ⟨s, hs, h⟩ := noneLost_iff twoCities twoParks (by decide +kernel) (by decide +kernel)
  refine ⟨s, hs, (h 2 (text "park")).1 fun l hl hq => .inr ⟨⟨12, 2, text "park", 3⟩, ?_⟩⟩
  have hbelongs : (loadInfo twoCities twoParks).map
      (fun s => decide (Belongs s 2 ⟨12, 2, text "park", 3⟩)) = some true := by decide +kernel
  rw [hs, Option.map_some, Option.some.injEq, decide_eq_true_eq] at hbelongs
  have hpark : l.name = text "park" := by
    have hword : ∀ l ∈ items twoCities twoParks, l.name <:+: cstr (text "park") →
        l.name = text "park" := by decide +kernel
    exact hword l hl hq.1
  refine ⟨⟨[⟨1, 0, text "bjbj", 2⟩, ⟨2, 0, text "shsh", 2⟩, ⟨11, 1, text "park", 3⟩], [],
    items_twoParks, by simp⟩, ⟨by decide, hbelongs⟩, ?_⟩
  rw [hpark]

/-- A deal in the first city loses its park. -/
theorem homonym_lost :
    ((items twoCities twoParks).map StrictItem.id).Nodup ∧
    (∀ l ∈ items twoCities twoParks, 0 < l.id) ∧
    ∃ s, loadInfo twoCities twoParks = some s ∧
      ¬ NoneLost s (items twoCities twoParks) 1 (text "park") := by
  refine ⟨by decide +kernel, by decide +kernel, ?_⟩
  have hfound : ((loadInfo twoCities twoParks).bind fun s => findLandmarks s 1 (text "park")).map
      Found.lmStr = some [] := by decide +kernel
  have hbelongs : (loadInfo twoCities twoParks).map
      (fun s => decide (Belongs s 1 ⟨11, 1, text "park", 3⟩)) = some true := by decide +kernel
  obtain ⟨s, hs, hb⟩ := Option.map_eq_some_iff.mp hbelongs
  rw [hs, Option.bind_some] at hfound
  refine ⟨s, hs, ?_⟩
  rintro ⟨found, hf, hall⟩
  have hin := hall ⟨11, 1, text "park", 3⟩ (by rw [items_twoParks]; simp)
    ⟨by decide, of_decide_eq_true hb⟩
  rw [hf, Option.map_some, Option.some.injEq] at hfound
  rw [hfound] at hin
  exact absurd hin (by decide)

end TextMining.LandMark
