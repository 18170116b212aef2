import TextMining.NBClassifier.Predict
import TextMining.NBClassifier.Reload

/-!
# The tags of a profile

The tags of the first key are each written over what is there, so only the last
of them is left, and the tags of the other keys are put behind it.
-/

namespace TextMining.NBClassifier

def TagMap.ids (allTags : TagMap) : List Int := allTags.entries.flatMap fun e => e.2.keys

namespace State

variable (s : State)

def namePart (id : Int) : List UInt8 := s.tagKey id ++ 58 :: s.tagName id

def idColumn (ids : List Int) : List UInt8 := [58].intercalate (ids.map decimalInt)

def nameColumn (ids : List Int) : List UInt8 := [59].intercalate (ids.map s.namePart)

-- ---------------------------------------------------------------------------
-- The loops
-- ---------------------------------------------------------------------------

section
variable {s}

theorem outputTag_ids (key : List UInt8) (first : Bool) (out : TagColumns) (tag : Int × Nat) :
    (s.outputTag key first out tag).allIdOut =
      (if first then [] else out.allIdOut ++ [58]) ++ decimalInt tag.1 := by
  simp only [outputTag]
  split <;> split <;> simp

theorem outputTag_names (key : List UInt8) (first : Bool) (out : TagColumns) (tag : Int × Nat) :
    (s.outputTag key first out tag).allNameOut =
      (if first then [] else out.allNameOut ++ [59]) ++ s.namePart tag.1 := by
  simp only [outputTag, namePart]
  split <;> split <;> simp

structure Lists (s : State) (out : TagColumns) (ids : List Int) : Prop where
  idOut : out.allIdOut = idColumn ids
  nameOut : out.allNameOut = s.nameColumn ids

theorem intercalate_concat {α : Type*} (sep : List α) {parts : List (List α)} (part : List α)
    (h : parts ≠ []) : sep.intercalate (parts ++ [part]) = sep.intercalate parts ++ sep ++ part := by
  induction parts with
  | nil => exact absurd rfl h
  | cons p parts ih =>
    cases parts with
    | nil => simp
    | cons q parts =>
      have hrest := ih (List.cons_ne_nil q parts)
      rw [List.cons_append] at hrest
      rw [List.cons_append, List.cons_append, List.intercalate_cons_cons, hrest,
        List.intercalate_cons_cons]
      simp only [List.append_assoc]

theorem Lists.first (key : List UInt8) (out : TagColumns) (tag : Int × Nat) :
    Lists s (s.outputTag key true out tag) [tag.1] := by
  constructor
  · rw [outputTag_ids]
    simp [idColumn]
  · rw [outputTag_names]
    simp [nameColumn]

theorem Lists.other {out : TagColumns} {ids : List Int} (h : Lists s out ids) (hne : ids ≠ [])
    (key : List UInt8) (tag : Int × Nat) :
    Lists s (s.outputTag key false out tag) (ids ++ [tag.1]) := by
  have hmap : ∀ f : Int → List UInt8, ids.map f ≠ [] := fun f he => hne (List.map_eq_nil_iff.mp he)
  constructor
  · rw [outputTag_ids, h.idOut, idColumn, idColumn, List.map_append, List.map_singleton,
      intercalate_concat _ _ (hmap _)]
    rfl
  · rw [outputTag_names, h.nameOut, nameColumn, nameColumn, List.map_append, List.map_singleton,
      intercalate_concat _ _ (hmap _)]
    rfl

theorem Lists.foldl_other {out : TagColumns} {ids : List Int} (h : Lists s out ids) (hne : ids ≠ [])
    (key : List UInt8) (tags : List (Int × Nat)) :
    Lists s (tags.foldl (s.outputTag key false) out) (ids ++ tags.map Prod.fst) := by
  induction tags generalizing out ids with
  | nil => simpa using h
  | cons tag tags ih =>
    rw [List.foldl_cons, List.map_cons, List.append_cons]
    exact ih (h.other hne key tag) (by simp)

theorem Lists.foldl_keys {out : TagColumns} {ids : List Int} (h : Lists s out ids) (hne : ids ≠ [])
    {n : Nat} (hn : n ≠ 0) (es : List (List UInt8 × OrdMap Int Nat)) :
    Lists s ((es.zipIdx n).foldl (fun out e =>
        e.1.2.entries.foldl (s.outputTag e.1.1 (e.2 == 0)) out) out)
      (ids ++ es.flatMap fun e => e.2.keys) := by
  induction es generalizing out ids n with
  | nil => simpa using h
  | cons e es ih =>
    rw [List.zipIdx_cons, List.foldl_cons, List.flatMap_cons, ← List.append_assoc]
    have hfirst : (n == 0) = false := beq_eq_false_iff_ne.mpr hn
    have hkey := h.foldl_other hne e.1 e.2.entries
    rw [← hfirst] at hkey
    exact ih hkey (by simp [hne]) (Nat.succ_ne_zero n)

theorem lists_outputTags {allTags : TagMap} {key : List UInt8} {tags : OrdMap Int Nat}
    {es : List (List UInt8 × OrdMap Int Nat)} {init : List (Int × Nat)} {tag : Int × Nat}
    (hall : allTags.entries = (key, tags) :: es) (htags : tags.entries = init ++ [tag]) :
    Lists s (s.outputTags allTags) (tag.1 :: es.flatMap fun e => e.2.keys) := by
  rw [outputTags, hall, List.zipIdx_cons, List.foldl_cons, htags, List.foldl_append]
  exact (Lists.first key _ tag).foldl_keys (List.cons_ne_nil _ _) (Nat.succ_ne_zero 0) es

theorem idColumn_inj {ids ids' : List Int} (hne : ids ≠ []) (hne' : ids' ≠ [])
    (h : idColumn ids = idColumn ids') : ids.length = ids'.length := by
  have hcolon : ∀ n, (58 : UInt8) ∉ decimalInt n := not_mem_decimalInt (by decide) (by decide)
  have hsplit : ∀ l : List Int, l ≠ [] → (idColumn l).splitOn 58 = l.map decimalInt := by
    intro l hl
    refine Row.Separable.splitOn_intercalate ⟨by simpa using hl, ?_⟩
    simp only [List.mem_map]
    rintro _ ⟨n, -, rfl⟩
    exact hcolon n
  have hmap := hsplit ids hne
  rw [h, hsplit ids' hne'] at hmap
  rw [← List.length_map decimalInt, ← hmap, List.length_map]

end

-- ---------------------------------------------------------------------------
-- All tags
-- ---------------------------------------------------------------------------

def ListsEveryTag (allTags : TagMap) : Prop :=
  ∃ ids, ids.Perm allTags.ids ∧ (s.outputTags allTags).allIdOut = idColumn ids ∧
    (s.outputTags allTags).allNameOut = s.nameColumn ids

/-- Only the first key matters. -/
theorem listsEveryTag_iff {allTags : TagMap} (hne : ∀ e ∈ allTags.entries, e.2.size ≠ 0) :
    s.ListsEveryTag allTags ↔ ∀ e, allTags.entries.head? = some e → e.2.size = 1 := by
  cases hall : allTags.entries with
  | nil =>
    refine iff_of_true ⟨[], ?_, ?_, ?_⟩ (by simp)
    · rw [TagMap.ids, hall, List.flatMap_nil]
    · rw [outputTags, hall]
      rfl
    · rw [outputTags, hall]
      rfl
  | cons e es =>
    obtain ⟨key, tags⟩ := e
    have hsize : tags.entries.length ≠ 0 := hne (key, tags) (by rw [hall]; exact List.mem_cons_self)
    obtain ⟨init, tag, htags⟩ := (List.eq_nil_or_concat tags.entries).resolve_left
      (mt List.length_eq_zero_iff.mpr hsize)
    rw [List.concat_eq_append] at htags
    have hlists := lists_outputTags (s := s) hall htags
    have hids : allTags.ids =
        init.map Prod.fst ++ tag.1 :: es.flatMap fun e => e.2.keys := by
      rw [TagMap.ids, hall, List.flatMap_cons, OrdMap.keys, htags]
      simp
    have hone : (∀ e, (((key, tags) :: es).head? = some e → e.2.size = 1)) ↔ init = [] := by
      simp [OrdMap.size, htags]
    rw [hone]
    constructor
    · rintro ⟨ids, hperm, hid, -⟩
      have hlen := hperm.length_eq
      rw [hids] at hlen
      have hcols := idColumn_inj (List.cons_ne_nil _ _) (fun he => by simp [he] at hlen)
        (hlists.idOut.symm.trans hid)
      refine List.length_eq_zero_iff.mp ?_
      simp only [List.length_append, List.length_map, List.length_cons] at hlen hcols
      omega
    · rintro rfl
      refine ⟨_, ?_, hlists.idOut, hlists.nameOut⟩
      rw [hids]
      rfl

theorem listsEveryTag_iff_three :
    let allTags : TagMap := (OrdMap.empty.insert (text "style")
      ((OrdMap.empty.insert 1 0).insert 2 5)).insert (text "brand") (OrdMap.empty.insert 3 1)
    init.ListsEveryTag allTags ↔ ∀ e, allTags.entries.head? = some e → e.2.size = 1 :=
  listsEveryTag_iff _ (by decide +kernel)

/-- The first of two tags of one key is lost. -/
theorem not_listsEveryTag_two :
    ¬init.ListsEveryTag (OrdMap.empty.insert (text "style")
      ((OrdMap.empty.insert 1 0).insert 2 5)) := by
  rintro ⟨ids, hperm, hid, -⟩
  have htwo : ids.length = 2 := hperm.length_eq
  have hout : (init.outputTags (OrdMap.empty.insert (text "style")
      ((OrdMap.empty.insert 1 0).insert 2 5))).allIdOut = idColumn [2] := by decide +kernel
  have hone := idColumn_inj (List.cons_ne_nil 2 []) (fun he => by simp [he] at htwo)
    (hout.symm.trans hid)
  rw [htwo] at hone
  cases hone

end State

end TextMining.NBClassifier
