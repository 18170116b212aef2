import TextMining.Lib.Bytes
import TextMining.Lib.Rows
import Mathlib.Data.List.Induction

/-!
# The item cache

`GetDataFrmCache` and `SetDataCache` of `NBClassifier`, over a key-value store
that is a plain map. Items come from two sources. A source of type 1 owns five
fields of an item and a source of type 2 the others, and what each writes
leaves the fields of the other alone.
-/

namespace TextMining.NBClassifier

def totalFieldNum : Nat := 23

def fieldsOf (line : List UInt8) : Row UInt8 := line.splitOn 9

def lineOf (row : Row UInt8) : List UInt8 := [9].intercalate row

-- ---------------------------------------------------------------------------
-- Fields of an item
-- ---------------------------------------------------------------------------

namespace ItemBaseField

def iid : Nat := 0
def name : Nat := 2
def url : Nat := 3
def pid : Nat := 6
def price : Nat := 7
def description : Nat := 14
def attr : Nat := 15
def brand : Nat := 17
def cid : Nat := 19

end ItemBaseField

open ItemBaseField

/-- The fields with the given numbers, glued together. -/
def dataMerge (ids : List Nat) (row : Row UInt8) : List UInt8 := ids.flatMap row.field

def jsDataMerge (row : Row UInt8) : List UInt8 := dataMerge [2, 3, 6, 7, 17] row

def crawlDataMerge (row : Row UInt8) : List UInt8 :=
  dataMerge [4, 5, 8, 9, 10, 11, 12, 13, 14, 15, 16, 18, 19, 20, 21, 22] row

def unknownDataMerge (row : Row UInt8) : List UInt8 := dataMerge [name, pid, description, attr] row

/-- Writes the fields of `x` that a source of type 1 owns to `y`. -/
def jsDataUpdate (x y : Row UInt8) : Row UInt8 := Row.overwrite [name, url, pid, price, brand] x y

/-- Writes the other fields of `x` to `y`, by way of a copy of `x`. -/
def crawlDataUpdate (x y : Row UInt8) : Row UInt8 :=
  Row.overwrite [name, url, pid, price, brand] y x

-- ---------------------------------------------------------------------------
-- The store
-- ---------------------------------------------------------------------------

abbrev Store := List UInt8 → Option (List UInt8)

def Store.put (store : Store) (key value : List UInt8) : Store :=
  fun k => if k = key then some value else store k

def itemBaseKey (cid iid : List UInt8) : List UInt8 := cid ++ text ":ItemBase:" ++ iid

def itemProfileKey (cid iid : List UInt8) : List UInt8 := cid ++ text ":ItemProfile:" ++ iid

/-- The answer is `none` for `false`. -/
def getDataFrmCache (store : Store) (line : List UInt8) (sourceType : Int32) : Option (List UInt8) :=
  if sourceType > 3 ∨ sourceType < 1 then none
  else
    let row := fieldsOf line
    if row.length < totalFieldNum then none
    else
      match store (itemBaseKey (row.field cid) (row.field iid)) with
      | none => none
      | some strbuf =>
        let cache := fieldsOf strbuf
        if cache.length < totalFieldNum then none
        else
          let merge :=
            if sourceType = 1 then jsDataMerge
            else if sourceType = 2 then crawlDataMerge
            else unknownDataMerge
          if merge row = merge cache then store (itemProfileKey (row.field cid) (row.field iid))
          else none

/-- The item base that `SetDataCache` writes. -/
def updateBase (sourceType : Int32) (line : List UInt8) : Option (List UInt8) → List UInt8
  | none => line
  | some strbuf =>
    let cache := fieldsOf strbuf
    if cache.length < totalFieldNum then line
    else
      let cache := if sourceType = 1 then jsDataUpdate (fieldsOf line) cache else cache
      let cache := if sourceType = 2 then crawlDataUpdate (fieldsOf line) cache else cache
      lineOf cache

def setDataCache (store : Store) (line : List UInt8) (sourceType : Int32) (profile : List UInt8) :
    Store :=
  if sourceType > 3 ∨ sourceType < 1 then store
  else
    let row := fieldsOf line
    if row.length < totalFieldNum then store
    else
      let key := itemBaseKey (row.field cid) (row.field iid)
      let store := store.put key (updateBase sourceType line (store key))
      store.put (itemProfileKey (row.field cid) (row.field iid)) profile

inductive Source
  | js
  | crawl
  deriving DecidableEq

def Source.type : Source → Int32
  | .js => 1
  | .crawl => 2

structure Call where
  source : Source
  line : List UInt8
  profile : List UInt8
  full : totalFieldNum ≤ (fieldsOf line).length

def Call.row (call : Call) : Row UInt8 := fieldsOf call.line

def Call.exec (store : Store) (call : Call) : Store :=
  setDataCache store call.line call.source.type call.profile

def runCalls (calls : List Call) : Store := calls.foldl Call.exec fun _ => none

-- ---------------------------------------------------------------------------
-- The fields of a source
-- ---------------------------------------------------------------------------

def owner (i : Nat) : Source := if i ∈ [2, 3, 6, 7, 17] then .js else .crawl

def Source.update : Source → Row UInt8 → Row UInt8 → Row UInt8
  | .js => jsDataUpdate
  | .crawl => crawlDataUpdate

def Source.merge : Source → Row UInt8 → List UInt8
  | .js => jsDataMerge
  | .crawl => crawlDataMerge

/-- A row whose line can be split into it, with all fields of an item. -/
structure Item (row : Row UInt8) : Prop where
  separable : row.Separable 9
  full : totalFieldNum ≤ row.length

theorem item_fieldsOf {line : List UInt8} (h : totalFieldNum ≤ (fieldsOf line).length) :
    Item (fieldsOf line) := ⟨Row.splitOn_separable 9 line, h⟩

theorem Call.item (call : Call) : Item call.row := item_fieldsOf call.full

@[simp] theorem lineOf_fieldsOf (line : List UInt8) : lineOf (fieldsOf line) = line :=
  List.intercalate_splitOn 9

theorem Item.fieldsOf_lineOf {row : Row UInt8} (h : Item row) : fieldsOf (lineOf row) = row :=
  h.separable.splitOn_intercalate

theorem Item.update {x y : Row UInt8} (hx : Item x) (hy : Item y) (s : Source) :
    Item (s.update x y) := by
  cases s with
  | js => exact ⟨hx.separable.overwrite hy.separable _, by
      simpa only [Source.update, jsDataUpdate, Row.length_overwrite] using hy.full⟩
  | crawl => exact ⟨hy.separable.overwrite hx.separable _, by
      simpa only [Source.update, crawlDataUpdate, Row.length_overwrite] using hx.full⟩

/-- A source writes its own fields and no others. -/
theorem Item.field_update {x y : Row UInt8} (hx : Item x) (hy : Item y) (s : Source) {i : Nat}
    (hi : i < totalFieldNum) :
    (s.update x y).field i = if owner i = s then x.field i else y.field i := by
  have hids : ([name, url, pid, price, brand] : List Nat) = [2, 3, 6, 7, 17] := rfl
  cases s with
  | js =>
    rw [Source.update, jsDataUpdate, Row.field_overwrite (hi.trans_le hy.full), hids, owner]
    split <;> simp
  | crawl =>
    rw [Source.update, crawlDataUpdate, Row.field_overwrite (hi.trans_le hx.full), hids, owner]
    split <;> simp

/-- Updates of different sources commute. -/
theorem Item.update_comm {x y base : Row UInt8} (hb : Item base) :
    Source.update .crawl y (Source.update .js x base) =
      Source.update .js x (Source.update .crawl y base) := by
  refine Row.overwrite_comm fun i hi => lt_of_lt_of_le ?_ hb.full
  revert i
  decide

theorem merge_congr {x y : Row UInt8} {s : Source}
    (h : ∀ i < totalFieldNum, owner i = s → x.field i = y.field i) : s.merge x = s.merge y := by
  cases s with
  | js =>
    refine List.flatMap_congr fun i hi => h i ?_ ?_
    · revert i; decide
    · revert i; decide
  | crawl =>
    refine List.flatMap_congr fun i hi => h i ?_ ?_
    · revert i; decide
    · revert i; decide

-- ---------------------------------------------------------------------------
-- Sequences of calls for one item
-- ---------------------------------------------------------------------------

/-- The last of the later calls from a source, or the first call when none of
them is. -/
def lastFrom (s : Source) (first : Call) (later : List Call) : Call :=
  (later.filter (·.source = s)).getLast?.getD first

/-- The item base that the calls amount to. -/
def baseRow (first : Call) (later : List Call) : Row UInt8 :=
  later.foldl (fun base call => call.source.update call.row base) first.row

section
variable {first : Call} {later : List Call} {custId itemId : List UInt8}

theorem lastFrom_concat (s : Source) (call : Call) :
    lastFrom s first (later ++ [call]) = if call.source = s then call else lastFrom s first later := by
  rw [lastFrom, List.filter_append]
  by_cases hs : call.source = s
  · simp [hs]
  · simp [hs, lastFrom]

theorem baseRow_concat (call : Call) :
    baseRow first (later ++ [call]) = call.source.update call.row (baseRow first later) := by
  rw [baseRow, List.foldl_append]
  rfl

theorem item_baseRow : Item (baseRow first later) := by
  induction later using List.reverseRecOn with
  | nil => exact first.item
  | append_singleton later call ih =>
    rw [baseRow_concat]
    exact call.item.update ih call.source

theorem field_baseRow {i : Nat} (hi : i < totalFieldNum) :
    (baseRow first later).field i = (lastFrom (owner i) first later).row.field i := by
  induction later using List.reverseRecOn with
  | nil => rfl
  | append_singleton later call ih =>
    rw [baseRow_concat, call.item.field_update item_baseRow call.source hi, lastFrom_concat, ih]
    by_cases hs : owner i = call.source
    · rw [if_pos hs, if_pos hs.symm]
    · rw [if_neg hs, if_neg (Ne.symm hs)]

theorem itemBaseKey_ne_itemProfileKey : itemBaseKey custId itemId ≠ itemProfileKey custId itemId := by
  intro h
  rw [itemBaseKey, itemProfileKey, List.append_left_inj, List.append_right_inj] at h
  exact absurd h (by decide +kernel)

theorem Call.exec_eq (store : Store) {call : Call}
    (hc : call.row.field cid = custId ∧ call.row.field iid = itemId) :
    call.exec store (itemBaseKey custId itemId) =
        some (updateBase call.source.type call.line (store (itemBaseKey custId itemId))) ∧
      call.exec store (itemProfileKey custId itemId) = some call.profile := by
  have htype : ¬ (call.source.type > 3 ∨ call.source.type < 1) := by
    cases call.source <;> decide
  have hfull : ¬ (fieldsOf call.line).length < totalFieldNum := Nat.not_lt.mpr call.full
  obtain ⟨hcid, hiid⟩ := hc
  rw [Call.row] at hcid hiid
  simp only [Call.exec, setDataCache, if_neg htype, if_neg hfull, hcid, hiid, Store.put, if_true,
    if_neg itemBaseKey_ne_itemProfileKey, and_self]

theorem updateBase_row {row : Row UInt8} (h : Item row) (call : Call) :
    updateBase call.source.type call.line (some (lineOf row)) =
      lineOf (call.source.update call.row row) := by
  have hfull : ¬ row.length < totalFieldNum := Nat.not_lt.mpr h.full
  simp only [updateBase, h.fieldsOf_lineOf, if_neg hfull, Call.row]
  cases call.source <;> rfl

theorem runCalls_item
    (hshare : ∀ c ∈ first :: later, c.row.field cid = custId ∧ c.row.field iid = itemId) :
    runCalls (first :: later) (itemBaseKey custId itemId) = some (lineOf (baseRow first later)) ∧
      runCalls (first :: later) (itemProfileKey custId itemId) =
        some (later.getLast?.getD first).profile := by
  induction later using List.reverseRecOn with
  | nil =>
    obtain ⟨hbase, hprofile⟩ := Call.exec_eq (fun _ => none) (hshare first (by simp))
    exact ⟨hbase.trans (by simp [updateBase, baseRow, Call.row]), hprofile⟩
  | append_singleton later call ih =>
    obtain ⟨hb, -⟩ := ih fun c hc => hshare c (by
      rcases List.mem_cons.mp hc with rfl | hc <;> simp [*])
    have hrun : runCalls (first :: (later ++ [call])) = call.exec (runCalls (first :: later)) := by
      simp only [runCalls, List.foldl_cons, List.foldl_append, List.foldl_nil]
    obtain ⟨hbase, hprofile⟩ := Call.exec_eq (runCalls (first :: later)) (hshare call (by simp))
    rw [hrun, hbase, hprofile, hb, updateBase_row item_baseRow, baseRow_concat]
    simp

/-- The last call from a source finds its own fields in the cache. -/
theorem getDataFrmCache_last {s : Source} {call : Call}
    (hshare : ∀ c ∈ first :: later, c.row.field cid = custId ∧ c.row.field iid = itemId)
    (hlast : ((first :: later).filter (·.source = s)).getLast? = some call) :
    getDataFrmCache (runCalls (first :: later)) call.line s.type =
      some (later.getLast?.getD first).profile := by
  obtain ⟨hmem, hsrc⟩ := List.mem_filter.mp (List.mem_of_getLast? hlast)
  have hfrom : lastFrom s first later = call := by
    rw [List.filter_cons] at hlast
    rw [lastFrom]
    cases hl : (later.filter (·.source = s)).getLast? with
    | none =>
      rw [List.getLast?_eq_none_iff.mp hl] at hlast
      split at hlast
      · exact Option.some.inj hlast
      · cases hlast
    | some c =>
      split at hlast
      · rw [List.getLast?_cons, hl] at hlast
        exact Option.some.inj hlast
      · exact Option.some.inj (hl.symm.trans hlast)
  obtain ⟨hbase, hprofile⟩ := runCalls_item hshare
  obtain ⟨hcid, hiid⟩ := hshare call hmem
  have hmerge : s.merge call.row = s.merge (baseRow first later) := by
    refine merge_congr fun i hi ho => ?_
    rw [field_baseRow hi, ho, hfrom]
  have htype : ¬ (s.type > 3 ∨ s.type < 1) := by cases s <;> decide
  have hfull : ¬ call.row.length < totalFieldNum := Nat.not_lt.mpr call.full
  have hcache : ¬ (baseRow first later).length < totalFieldNum := Nat.not_lt.mpr item_baseRow.full
  rw [Call.row] at hcid hiid hmerge hfull
  simp only [getDataFrmCache, if_neg htype, if_neg hfull, hcid, hiid, hbase,
    item_baseRow.fieldsOf_lineOf, if_neg hcache, hprofile]
  cases s <;> exact if_pos hmerge

theorem runCalls_swap {pre post : List Call} {a b : Call} (hpre : pre ≠ [])
    (hsrc : a.source ≠ b.source)
    (hshare : ∀ c ∈ pre ++ a :: b :: post, c.row.field cid = custId ∧ c.row.field iid = itemId) :
    runCalls (pre ++ b :: a :: post) (itemBaseKey custId itemId) =
      runCalls (pre ++ a :: b :: post) (itemBaseKey custId itemId) := by
  obtain ⟨first, pre, rfl⟩ := List.exists_cons_of_ne_nil hpre
  have hswap : ∀ c ∈ first :: (pre ++ b :: a :: post),
      c.row.field cid = custId ∧ c.row.field iid = itemId := fun c hc =>
    hshare c (by simp only [List.cons_append, List.mem_cons, List.mem_append] at hc ⊢; tauto)
  have hcomm : b.source.update b.row (a.source.update a.row (baseRow first pre)) =
      a.source.update a.row (b.source.update b.row (baseRow first pre)) := by
    cases ha : a.source with
    | js =>
      cases hb : b.source with
      | js => exact absurd (ha.trans hb.symm) hsrc
      | crawl => exact Item.update_comm item_baseRow
    | crawl =>
      cases hb : b.source with
      | js => exact (Item.update_comm item_baseRow).symm
      | crawl => exact absurd (ha.trans hb.symm) hsrc
  rw [List.cons_append] at hshare
  rw [List.cons_append, List.cons_append, (runCalls_item hswap).1, (runCalls_item hshare).1]
  simp only [baseRow] at hcomm
  simp only [baseRow, List.foldl_append, List.foldl_cons, hcomm]

/-- The sources never overwrite each other's fields, and each finds what it
wrote. -/
theorem sources_disjoint
    (hshare : ∀ c ∈ first :: later, c.row.field cid = custId ∧ c.row.field iid = itemId) :
    (∃ base, runCalls (first :: later) (itemBaseKey custId itemId) = some base ∧
      totalFieldNum ≤ (fieldsOf base).length ∧
      (∀ i ∈ [2, 3, 6, 7, 17],
        (fieldsOf base).field i = (lastFrom .js first later).row.field i) ∧
      ∀ i < totalFieldNum, i ∉ [2, 3, 6, 7, 17] →
        (fieldsOf base).field i = (lastFrom .crawl first later).row.field i) ∧
    (∀ pre a b post, pre ≠ [] → a.source ≠ b.source → first :: later = pre ++ a :: b :: post →
      runCalls (pre ++ b :: a :: post) (itemBaseKey custId itemId) =
        runCalls (first :: later) (itemBaseKey custId itemId)) ∧
    ∀ s call, ((first :: later).filter (·.source = s)).getLast? = some call →
      getDataFrmCache (runCalls (first :: later)) call.line s.type =
        some (later.getLast?.getD first).profile := by
  refine ⟨⟨_, (runCalls_item hshare).1, ?_, ?_, ?_⟩, ?_, fun s call => getDataFrmCache_last hshare⟩
  · rw [item_baseRow.fieldsOf_lineOf]
    exact item_baseRow.full
  · intro i hi
    have hlt : i < totalFieldNum := by
      revert i
      decide
    rw [item_baseRow.fieldsOf_lineOf, field_baseRow hlt, owner, if_pos hi]
  · intro i hlt hi
    rw [item_baseRow.fieldsOf_lineOf, field_baseRow hlt, owner, if_neg hi]
  · intro pre a b post hpre hsrc he
    rw [he]
    exact runCalls_swap hpre hsrc (he ▸ hshare)

end

/-- The item `a` of the customer `b`, first crawled with the name `n` and then
read from a page with the name `m`. -/
theorem sources_disjoint_two :
    ∃ first second : Call, first.source = .crawl ∧ second.source = .js ∧
      getDataFrmCache (runCalls [first, second]) first.line Source.crawl.type =
        some second.profile := by
  refine ⟨⟨.crawl, [97, 9, 9, 110] ++ List.replicate 17 9 ++ [98, 9, 9, 9], [112], ?_⟩,
    ⟨.js, [97, 9, 9, 109] ++ List.replicate 17 9 ++ [98, 9, 9, 9], [113], ?_⟩, rfl, rfl, ?_⟩
  · decide +kernel
  · decide +kernel
  · have hshare : ∀ c : Call, c.line = [97, 9, 9, 110] ++ List.replicate 17 9 ++ [98, 9, 9, 9] ∨
        c.line = [97, 9, 9, 109] ++ List.replicate 17 9 ++ [98, 9, 9, 9] →
        c.row.field cid = [98] ∧ c.row.field iid = [97] := by
      rintro c (hc | hc) <;> rw [Call.row, hc] <;> decide +kernel
    refine (sources_disjoint fun c hc => hshare c ?_).2.2 .crawl _ rfl
    simp only [List.mem_cons, List.not_mem_nil, or_false] at hc
    rcases hc with rfl | rfl <;> simp

-- ---------------------------------------------------------------------------
-- What a hit compares
-- ---------------------------------------------------------------------------

def Source.fields : Source → List Nat
  | .js => [2, 3, 6, 7, 17]
  | .crawl => [4, 5, 8, 9, 10, 11, 12, 13, 14, 15, 16, 18, 19, 20, 21, 22]

theorem Source.merge_eq (s : Source) (row : Row UInt8) : s.merge row = dataMerge s.fields row := by
  cases s <;> rfl

/-- Texts that are glued together are the same one by one when they are cut at
the same places. -/
theorem dataMerge_eq_iff {ids : List Nat} {x y : Row UInt8}
    (hlen : ∀ i ∈ ids, (x.field i).length = (y.field i).length) :
    dataMerge ids x = dataMerge ids y ↔ ∀ i ∈ ids, x.field i = y.field i := by
  refine ⟨fun h => ?_, List.flatMap_congr⟩
  induction ids with
  | nil => exact fun i hi => absurd hi List.not_mem_nil
  | cons j ids ih =>
    rw [dataMerge, dataMerge, List.flatMap_cons, List.flatMap_cons] at h
    obtain ⟨hj, hrest⟩ := List.append_inj h (hlen j List.mem_cons_self)
    intro i hi
    cases hi with
    | head => exact hj
    | tail _ hi => exact ih (fun k hk => hlen k (List.mem_cons_of_mem j hk)) hrest i hi

/-- The item base that a line is compared with, when there is one with a
profile. -/
def cachedBase (store : Store) (line : List UInt8) : Option (Row UInt8) :=
  let row := fieldsOf line
  match store (itemBaseKey (row.field cid) (row.field iid)) with
  | none => none
  | some strbuf =>
    if totalFieldNum ≤ row.length ∧ totalFieldNum ≤ (fieldsOf strbuf).length ∧
        (store (itemProfileKey (row.field cid) (row.field iid))).isSome then
      some (fieldsOf strbuf)
    else none

section
variable {store : Store} {line : List UInt8} {s : Source}

theorem getDataFrmCache_isSome_iff : (getDataFrmCache store line s.type).isSome ↔
    ∃ cache, cachedBase store line = some cache ∧ s.merge (fieldsOf line) = s.merge cache := by
  have htype : ¬ (s.type > 3 ∨ s.type < 1) := by cases s <;> decide
  have hmerge : (if s.type = 1 then jsDataMerge
      else if s.type = 2 then crawlDataMerge else unknownDataMerge) = s.merge := by
    cases s <;> rfl
  simp only [getDataFrmCache, if_neg htype, hmerge, cachedBase]
  cases store (itemBaseKey ((fieldsOf line).field cid) ((fieldsOf line).field iid)) with
  | none => simp
  | some strbuf =>
    by_cases hrow : (fieldsOf line).length < totalFieldNum
    · simp [if_pos hrow, Nat.not_le.mpr hrow]
    · by_cases hcache : (fieldsOf strbuf).length < totalFieldNum
      · simp [if_pos hcache, Nat.not_le.mpr hcache]
      · simp only [if_neg hrow, if_neg hcache, Nat.not_lt.mp hrow, Nat.not_lt.mp hcache, true_and]
        split
        · split <;> simp_all
        · split <;> simp_all

theorem cachedBase_eq_some {cache : Row UInt8} (h : cachedBase store line = some cache) :
    ∃ strbuf, store (itemBaseKey ((fieldsOf line).field cid) ((fieldsOf line).field iid)) =
      some strbuf ∧ fieldsOf strbuf = cache := by
  simp only [cachedBase] at h
  split at h
  · cases h
  · rename_i strbuf hbase
    split at h
    · exact ⟨strbuf, hbase, Option.some.inj h⟩
    · cases h

end

def HitAgrees (store : Store) (line : List UInt8) (s : Source) : Prop :=
  (getDataFrmCache store line s.type).isSome →
    ∃ strbuf, store (itemBaseKey ((fieldsOf line).field cid) ((fieldsOf line).field iid)) =
        some strbuf ∧
      ∀ i ∈ s.fields, (fieldsOf line).field i = (fieldsOf strbuf).field i

/-- The line and the item base do not cut the same text in two ways. -/
def CutAlike (store : Store) (line : List UInt8) (s : Source) : Prop :=
  ∀ cache, cachedBase store line = some cache → s.merge (fieldsOf line) = s.merge cache →
    ∀ i ∈ s.fields, ((fieldsOf line).field i).length = (cache.field i).length

theorem hitAgrees_iff (store : Store) (line : List UInt8) (s : Source) :
    HitAgrees store line s ↔ CutAlike store line s := by
  rw [HitAgrees, getDataFrmCache_isSome_iff]
  constructor
  · intro h cache hbase hmerge i hi
    obtain ⟨strbuf, hget, hfields⟩ := h ⟨cache, hbase, hmerge⟩
    obtain ⟨strbuf', hget', rfl⟩ := cachedBase_eq_some hbase
    cases hget.symm.trans hget'
    rw [hfields i hi]
  · rintro h ⟨cache, hbase, hmerge⟩
    have hlen := h cache hbase hmerge
    rw [s.merge_eq, s.merge_eq, dataMerge_eq_iff hlen] at hmerge
    obtain ⟨strbuf, hget, rfl⟩ := cachedBase_eq_some hbase
    exact ⟨strbuf, hget, hmerge⟩

/-- The pid 1 with the price 25 hits what was stored for the pid 12 with the
price 5. -/
theorem not_hitAgrees_price :
    let item := fun pid price => lineOf
      (((List.replicate 23 []).set ItemBaseField.pid pid).set ItemBaseField.price price)
    ¬HitAgrees (setDataCache (fun _ => none) (item (text "12") (text "5")) 1 (text "tags"))
      (item (text "1") (text "25")) .js := by
  intro item h
  obtain ⟨strbuf, hget, hfields⟩ := h (by decide +kernel)
  have hbase : setDataCache (fun _ => none) (item (text "12") (text "5")) 1 (text "tags")
      (itemBaseKey ((fieldsOf (item (text "1") (text "25"))).field cid)
        ((fieldsOf (item (text "1") (text "25"))).field iid)) =
      some (item (text "12") (text "5")) := by decide +kernel
  cases hget.symm.trans hbase
  exact absurd (hfields ItemBaseField.pid (by decide)) (by decide +kernel)

end TextMining.NBClassifier
