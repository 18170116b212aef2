import TextMining.AhoCorasick.Model
import TextMining.Lib.Codec
import TextMining.Lib.HashMap
import TextMining.LibWb

/-!
# The landmark search

`TuanDanProcessor`: the tables of cities and landmarks that `LoadInfo` fills,
`IsFatherSon` over them, and the search of `TDProcess` for the city and the
landmarks of a deal. The search for a shop, which shares no table with these,
and the log calls are left out. `operator[]` of the tables inserts a zero
entry for a key they do not have.
-/

namespace TextMining.LandMark

/-- The largest `size_t` where the search runs. -/
def npos : Nat := 2 ^ 32 - 1

/-- `strict_item_t`; `name` is the C string in the array. -/
structure StrictItem where
  id : Int32
  fatherId : Int32
  name : List UInt8
  type : Int32
  deriving DecidableEq, Repr

abbrev Table := HashMap Int32 StrictItem

structure State where
  mLandmarkInfo : Table
  mCityInfo : Table
  acCity : AhoCorasick
  acLM : AhoCorasick

def State.empty : State := ⟨∅, ∅, AhoCorasick.clear, AhoCorasick.clear⟩

-- ---------------------------------------------------------------------------
-- Rows
-- ---------------------------------------------------------------------------

/-- A line of a data file, with the values of the `int` that a failed read of
each of its fields leaves unset. -/
structure Row where
  line : List UInt8
  unset : Nat → Int32

def Row.fields (row : Row) : Option (List UInt8 × List UInt8 × List UInt8 × List UInt8) :=
  match (LibWb.SpliteByChar npos row.line 9).getD [] with
  | [name, id, fatherId, type] => some (name, id, fatherId, type)
  | _ => none

def Row.strTo (row : Row) (i : Nat) (field : List UInt8) : Int32 :=
  (readInt field).getD (row.unset i)

/-- 省, 市, 区 and 县 as they stand in the source file. -/
def province : List UInt8 := [231, 156, 129]
def city : List UInt8 := [229, 184, 130]
def district : List UInt8 := [229, 140, 186]
def county : List UInt8 := [229, 142, 191]

/-- A word of fewer than three bytes is compared with what lies before it; such
a name is too short in any case. -/
def cutTail (word : List UInt8) : List UInt8 :=
  if province <:+ word ∨ city <:+ word ∨ district <:+ word ∨ county <:+ word
  then word.take (word.length - 3) else word

def cityItem (row : Row) : Option StrictItem :=
  match row.fields with
  | none => none
  | some (name, id, fatherId, type) =>
    let name := snprintf 128 name
    if county <:+ name then none
    else
      let name := cutTail name
      if name.length < 4 then none
      else some ⟨row.strTo 1 id, row.strTo 2 fatherId, name, row.strTo 3 type⟩

def landmarkItem (row : Row) : Option StrictItem :=
  match row.fields with
  | none => none
  | some (name, id, fatherId, type) =>
    some ⟨row.strTo 1 id, row.strTo 2 fatherId, snprintf 128 name, row.strTo 3 type⟩

def tdProcessLineCity (s : State) (row : Row) : State :=
  match cityItem row with
  | none => s
  | some item =>
    { mCityInfo := s.mCityInfo.insertNew item.id item
      acCity := s.acCity.insert item.name item.id.toInt
      mLandmarkInfo := s.mLandmarkInfo.insertNew item.id item
      acLM := s.acLM.insert item.name item.id.toInt }

def tdProcessLineLM (s : State) (row : Row) : State :=
  match landmarkItem row with
  | none => s
  | some item =>
    -- already have this lm, must be city
    if item.id ∈ s.mLandmarkInfo then s
    else
      { s with
        mLandmarkInfo := s.mLandmarkInfo.insertNew item.id item
        acLM := s.acLM.insert item.name item.id.toInt }

def loadInfo (cities landmarks : List Row) : Option State := do
  let s := landmarks.foldl tdProcessLineLM (cities.foldl tdProcessLineCity State.empty)
  let acCity ← s.acCity.buildAutomata
  let acLM ← s.acLM.buildAutomata
  some { s with acCity, acLM }

-- ---------------------------------------------------------------------------
-- Ancestors
-- ---------------------------------------------------------------------------

namespace Table

def get (m : Table) (id : Int32) : StrictItem := (m.lookup id).getD ⟨0, 0, [], 0⟩

def touch (m : Table) (id : Int32) : Table := m.insertNew id ⟨0, 0, [], 0⟩

end Table

/-- The loop of `IsFatherSon`, with `10 - count` rounds left. -/
def fatherLoop (father : Int32) : Nat → Int32 → Table → Bool × Table
  | 0, tmpId, m => (false, Table.touch m tmpId)
  | n + 1, tmpId, m =>
    let m := Table.touch m tmpId
    if (Table.get m tmpId).type ≤ 1 then (false, m)
    else if (Table.get m tmpId).fatherId = father then (true, Table.touch m father)
    else fatherLoop father n (Table.get m tmpId).fatherId m

def isFatherSon (father son : Int32) (m : Table) : Bool × Table :=
  let m := Table.touch m father
  if (Table.get m father).type ≤ 1 then (false, m)
  else
    let m := Table.touch m son
    if (Table.get m son).type ≤ 1 then (false, m) else fatherLoop father 10 son m

-- ---------------------------------------------------------------------------
-- The search
-- ---------------------------------------------------------------------------

/-- The loop over the cities that match, up to its first `break`. -/
def firstCity : List Int → Table → Int32 × Bool × Table
  | [], m => (0, false, m)
  | id :: ids, m =>
    let m := Table.touch m (Int32.ofInt id)
    let found := Table.get m (Int32.ofInt id)
    if found.type = 2 ∨ found.type = 3 then (found.id, true, m) else firstCity ids m

def findCity (s : State) (cata nameDes : List UInt8) : Option (Int32 × Bool × State) := do
  let matched ← s.acCity.getMatch (cstr cata)
  let (cityId, confirmed, mCityInfo) := firstCity matched.elems s.mCityInfo
  let s := { s with mCityInfo }
  let matched ← s.acCity.getMatch (cstr nameDes)
  if confirmed then some (cityId, true, s)
  else
    let (cityId, _, mCityInfo) := firstCity matched.elems s.mCityInfo
    some (cityId, false, { s with mCityInfo })

structure Found where
  lmStr : List UInt8
  lmId : Int32
  mLandmarkInfo : Table

def landmarkStep (cityId : Int32) (acc : Found) (id : Int) : Found :=
  let m := Table.touch acc.mLandmarkInfo (Int32.ofInt id)
  let tmpId := (Table.get m (Int32.ofInt id)).id
  let (son, m) := isFatherSon cityId tmpId m
  if son then
    let name := (Table.get m (Int32.ofInt id)).name
    ⟨if name <:+: acc.lmStr then acc.lmStr else acc.lmStr ++ name ++ [32], tmpId,
      Table.touch m (Int32.ofInt id)⟩
  else { acc with mLandmarkInfo := m }

/-- The landmark loop of `TDProcess` for a deal in a city. -/
def findLandmarks (s : State) (cityId : Int32) (nameDes : List UInt8) : Option Found := do
  let matched ← s.acLM.getMatch (cstr nameDes)
  some (matched.elems.foldl (landmarkStep cityId) ⟨[], 0, s.mLandmarkInfo⟩)

/-- What `TDProcess` writes for a deal, up to the shop. -/
def tdProcessLine (s : State) (line : List UInt8) : Option (List UInt8 × State) :=
  let fields := (LibWb.SpliteByChar npos line 9).getD []
  if fields.length ≠ 11 then some ([], s)
  else do
    let name := fields.getD 2 []
    let cata := fields.getD 7 []
    let des := fields.getD 5 []
    let tuangouId := fields.getD 1 []
    let (cityId, confirmed, s) ← findCity s cata (name ++ des)
    if cityId = 0 then some (tuangouId ++ [9] ++ [9] ++ [9, 48, 9], s)
    else
      let cityName := (Table.get s.mCityInfo cityId).name
      let s := { s with mCityInfo := Table.touch s.mCityInfo cityId }
      let found ← findLandmarks s cityId (name ++ des)
      let flag : List UInt8 := if found.lmId ≠ 0 ∨ confirmed then [9, 50, 9] else [9, 49, 9]
      some (tuangouId ++ [9] ++ cityName ++ [9] ++ found.lmStr ++ flag,
        { s with mLandmarkInfo := found.mLandmarkInfo })

end TextMining.LandMark
