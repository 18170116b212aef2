import TextMining.NBClassifier.Predict

/-!
# When the cache is transparent

A profile found in the cache is the one that the classifier made of the line
for which it was stored. So the cache changes nothing as long as every line
that it answers reads like the line of the profile that it finds.
-/

namespace TextMining.NBClassifier

section
variable (readers : Readers) (settings : Settings) (s : State)

-- ---------------------------------------------------------------------------
-- What a classification reads
-- ---------------------------------------------------------------------------

/-- The texts that the classifier segments and searches, and what the KNN is
asked. -/
structure ReadsAlike (row row' : Row UInt8) : Prop where
  strClass : strClassNeeded readers settings row = strClassNeeded readers settings row'
  strTag : strTagNeeded row = strTagNeeded row'
  knn : settings.needMiniKNN = 1 → row.field PDataField.cid = row'.field PDataField.cid ∧
    row.field PDataField.cate = row'.field PDataField.cate

variable {readers settings} in
theorem ReadsAlike.classify_eq {row row' : Row UInt8} (h : ReadsAlike readers settings row row') :
    s.classify readers settings row = s.classify readers settings row' := by
  have hknn : s.knnClass readers settings row = s.knnClass readers settings row' := by
    rw [State.knnClass, State.knnClass]
    split
    · rename_i hneed
      rw [(h.knn hneed).1, (h.knn hneed).2]
    · rfl
  rw [State.classify, State.classify, h.strClass, h.strTag, hknn]

-- ---------------------------------------------------------------------------
-- Where a value of the store is from
-- ---------------------------------------------------------------------------

/-- What was last written under a key: an item base, or the profile of a line. -/
inductive Origin
  | base
  | profile (item : ItemLine)

abbrev Origins := List UInt8 → Option Origin

def Origins.put (origins : Origins) (key : List UInt8) (origin : Origin) : Origins :=
  fun k => if k = key then some origin else origins k

def Origins.setDataCache (origins : Origins) (item : ItemLine) : Origins :=
  let row := fieldsOf item.line
  let custId := row.field ItemBaseField.cid
  let itemId := row.field ItemBaseField.iid
  (origins.put (itemBaseKey custId itemId) .base).put (itemProfileKey custId itemId) (.profile item)

def State.trace (store : Store) (origins : Origins) (item : ItemLine) : Origins :=
  match getDataFrmCache store item.line settings.dataSourceType,
    s.classify readers settings (fieldsOf item.line) with
  | none, some (.profile _) =>
    if settings.dataSourceType = 1 ∨ settings.dataSourceType = 2 then origins.setDataCache item
    else origins
  | _, _ => origins

/-- A line that the cache answers reads like the line whose profile is there. -/
def Current (store : Store) (origins : Origins) (item : ItemLine) : Prop :=
  (getDataFrmCache store item.line settings.dataSourceType).isSome →
    ∃ stored, origins (itemProfileKey ((fieldsOf item.line).field ItemBaseField.cid)
        ((fieldsOf item.line).field ItemBaseField.iid)) = some (.profile stored) ∧
      ReadsAlike readers settings (fieldsOf item.line) (fieldsOf stored.line)

def State.AllCurrent : Store → Origins → List ItemLine → Prop
  | _, _, [] => True
  | store, origins, item :: items =>
    Current readers settings store origins item ∧
      ∀ store' profile, s.nbPredictLine readers settings store item = some (store', profile) →
        State.AllCurrent store' (s.trace readers settings store origins item) items

def State.freshProfile (item : ItemLine) : Option (Option (List UInt8)) :=
  (s.nbPredictLine readers settings (fun _ => none) item).map Prod.snd

/-- What is written for a sequence of lines is what is written for each with an
empty cache. -/
def State.Transparent (items : List ItemLine) : Prop :=
  s.nbPredict readers settings (fun _ => none) items =
    items.mapM (s.freshProfile readers settings)

-- ---------------------------------------------------------------------------
-- One line
-- ---------------------------------------------------------------------------

/-- The profiles of the store are those of the lines they are from. -/
def State.Sound (store : Store) (origins : Origins) : Prop :=
  ∀ key item, origins key = some (.profile item) → ∃ profile,
    s.classify readers settings (fieldsOf item.line) = some (.profile profile) ∧
      store key = some profile

variable {readers settings s} {store : Store} {origins : Origins} {item : ItemLine}

theorem State.Sound.putBase (h : s.Sound readers settings store origins) (key value : List UInt8) :
    s.Sound readers settings (store.put key value) (origins.put key .base) := by
  intro k stored hk
  rw [Origins.put] at hk
  split at hk
  · cases hk
  · rename_i hne
    obtain ⟨profile, hprofile, hstore⟩ := h k stored hk
    exact ⟨profile, hprofile, (if_neg hne).trans hstore⟩

theorem State.Sound.putProfile (h : s.Sound readers settings store origins) (key : List UInt8)
    {profile : List UInt8}
    (hp : s.classify readers settings (fieldsOf item.line) = some (.profile profile)) :
    s.Sound readers settings (store.put key profile) (origins.put key (.profile item)) := by
  intro k stored hk
  rw [Origins.put] at hk
  split at hk
  · rename_i he
    cases hk
    exact ⟨profile, hp, if_pos he⟩
  · rename_i hne
    obtain ⟨profile, hprofile, hstore⟩ := h k stored hk
    exact ⟨profile, hprofile, (if_neg hne).trans hstore⟩

theorem State.Sound.setDataCache (h : s.Sound readers settings store origins)
    {profile : List UInt8}
    (hp : s.classify readers settings (fieldsOf item.line) = some (.profile profile))
    (htype : settings.dataSourceType = 1 ∨ settings.dataSourceType = 2) :
    s.Sound readers settings (setDataCache store item.line settings.dataSourceType profile)
      (origins.setDataCache item) := by
  have hvalid : ¬(settings.dataSourceType > 3 ∨ settings.dataSourceType < 1) := by
    rcases htype with ht | ht <;> rw [ht] <;> decide
  rw [NBClassifier.setDataCache, if_neg hvalid, if_neg (Nat.not_lt.mpr item.full)]
  exact (h.putBase _ _).putProfile _ hp

theorem getDataFrmCache_eq_some {line profile : List UInt8} {sourceType : Int32}
    (h : getDataFrmCache store line sourceType = some profile) :
    store (itemProfileKey ((fieldsOf line).field ItemBaseField.cid)
      ((fieldsOf line).field ItemBaseField.iid)) = some profile := by
  rw [getDataFrmCache] at h
  split at h
  · cases h
  · dsimp only at h
    split at h
    · cases h
    · split at h
      · cases h
      · split at h
        · cases h
        · exact (Option.ite_none_right_eq_some.mp h).2

theorem getDataFrmCache_empty (line : List UInt8) (sourceType : Int32) :
    getDataFrmCache (fun _ => none) line sourceType = none := by
  cases h : getDataFrmCache (fun _ => none) line sourceType with
  | none => rfl
  | some profile => cases getDataFrmCache_eq_some h

theorem freshProfile_eq : s.freshProfile readers settings item =
    (s.classify readers settings (fieldsOf item.line)).map Prediction.output := by
  rw [State.freshProfile, State.nbPredictLine, getDataFrmCache_empty]
  cases s.classify readers settings (fieldsOf item.line) with
  | none => rfl
  | some prediction =>
    cases prediction with
    | noWords => rfl
    | fail => rfl
    | profile profile =>
      dsimp only [Option.bind_eq_bind, Option.bind_some]
      split <;> rfl

/-- A current line gets its own profile, and the store stays sound. -/
theorem State.Sound.nbPredictLine (h : s.Sound readers settings store origins)
    (hcurrent : Current readers settings store origins item) :
    (s.nbPredictLine readers settings store item).map Prod.snd = s.freshProfile readers settings item ∧
      ∀ store' profile, s.nbPredictLine readers settings store item = some (store', profile) →
        s.Sound readers settings store' (s.trace readers settings store origins item) := by
  rw [freshProfile_eq, State.nbPredictLine, State.trace]
  cases hget : getDataFrmCache store item.line settings.dataSourceType with
  | some outputProfile =>
    obtain ⟨stored, horigin, hreads⟩ := hcurrent (by rw [hget]; rfl)
    obtain ⟨profile, hprofile, hstore⟩ := h _ stored horigin
    cases (getDataFrmCache_eq_some hget).symm.trans hstore
    rw [hreads.classify_eq s, hprofile]
    refine ⟨rfl, fun store' out hout => ?_⟩
    cases hout
    exact h
  | none =>
    dsimp only
    cases hclass : s.classify readers settings (fieldsOf item.line) with
    | none =>
      refine ⟨rfl, fun store' out hout => ?_⟩
      cases hout
    | some prediction =>
      cases prediction with
      | noWords =>
        refine ⟨rfl, fun store' out hout => ?_⟩
        cases hout
        exact h
      | fail =>
        refine ⟨rfl, fun store' out hout => ?_⟩
        cases hout
        exact h
      | profile outputProfile =>
        dsimp only [Option.bind_eq_bind, Option.bind_some]
        split
        · rename_i htype
          refine ⟨rfl, fun store' out hout => ?_⟩
          cases hout
          exact h.setDataCache hclass htype
        · refine ⟨rfl, fun store' out hout => ?_⟩
          cases hout
          exact h

-- ---------------------------------------------------------------------------
-- A sequence of lines
-- ---------------------------------------------------------------------------

theorem State.Sound.nbPredict (h : s.Sound readers settings store origins) {items : List ItemLine}
    (hcurrent : s.AllCurrent readers settings store origins items) :
    s.nbPredict readers settings store items = items.mapM (s.freshProfile readers settings) := by
  induction items generalizing store origins with
  | nil => rfl
  | cons item items ih =>
    obtain ⟨hitem, hrest⟩ := hcurrent
    obtain ⟨hfresh, hnext⟩ := h.nbPredictLine hitem
    rw [State.nbPredict, List.mapM_cons, ← hfresh]
    cases hline : s.nbPredictLine readers settings store item with
    | none => rfl
    | some result =>
      obtain ⟨store', profile⟩ := result
      have hitems := ih (hnext store' profile hline) (hrest store' profile hline)
      dsimp only [Option.bind_eq_bind, Option.bind_some, Option.map_some]
      rw [hitems]
      rfl

/-- In a run whose answered lines are all current the cache is transparent. -/
theorem transparent_of_current {items : List ItemLine}
    (h : s.AllCurrent readers settings (fun _ => none) (fun _ => none) items) :
    s.Transparent readers settings items := by
  refine State.Sound.nbPredict (fun key item hk => ?_) h
  cases hk

end

-- ---------------------------------------------------------------------------
-- A category that changes
-- ---------------------------------------------------------------------------

/-- The KNN tells tea from everything else, by the category. -/
def teaReaders : Readers where
  env := { hashlittle := fun _ => 0, spliteByChar := fun line ch => line.splitOn ch,
           isDigit := fun _ => false }
  segment line := [line]
  miniKNN _ cate := if cate = text "tea" then 11 else 12
  category _ := none

def crawlSettings : Settings := ⟨0, 1, 2⟩

def twoClasses : State :=
  (State.init.loadRow ⟨1, 1, 0, text "tea", 11⟩).loadRow ⟨2, 1, 0, text "food", 12⟩

/-- An item of which only the ids and the category are known. -/
def itemRow (cate : List UInt8) : Row UInt8 :=
  (((List.replicate 23 []).set 0 (text "7")).set 19 (text "9")).set 6 cate

def teaItem : ItemLine := ⟨lineOf (itemRow (text "tea")), by decide +kernel⟩

def foodItem : ItemLine := ⟨lineOf (itemRow (text "food")), by decide +kernel⟩

theorem transparent_same : twoClasses.Transparent teaReaders crawlSettings [teaItem, teaItem] := by
  have hempty : getDataFrmCache (fun _ => none) teaItem.line crawlSettings.dataSourceType = none :=
    getDataFrmCache_empty _ _
  have hclass : twoClasses.classify teaReaders crawlSettings (fieldsOf teaItem.line) =
      some (.profile (text "11\ttea\t1\t\t\t\t")) := by decide +kernel
  refine transparent_of_current ⟨fun h => ?_, fun store profile _ =>
    ⟨fun _ => ⟨teaItem, ?_, rfl, rfl, fun _ => ⟨rfl, rfl⟩⟩, fun _ _ _ => trivial⟩⟩
  · rw [hempty] at h
    cases h
  · rw [State.trace, hempty, hclass]
    rfl

/-- The category is no field that a source of type 2 compares, so the second
line gets the profile of the first. -/
theorem not_transparent_category :
    ¬ twoClasses.Transparent teaReaders crawlSettings [teaItem, foodItem] := by
  rw [State.Transparent]
  decide +kernel

end TextMining.NBClassifier
