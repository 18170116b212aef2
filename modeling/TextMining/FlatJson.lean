import TextMining.CJParser

/-!
# Flat objects

The text of an object with string values, and what `ParseJson` reads back from
it where `unsigned int` is as wide as `size_t`. A value ends at the first comma
that has a quote behind it, also when the comma is the last byte of the value;
behind the last field the first brace has to be the end of the text.
-/

namespace TextMining.CJParser

open StringTool Occurrence

abbrev FieldValue := List UInt8 × List UInt8

def fieldText (e : FieldValue) : List UInt8 := 34 :: e.1 ++ 34 :: 58 :: 34 :: e.2 ++ [34]

def objectText (fields : List FieldValue) : List UInt8 :=
  123 :: [44].intercalate (fields.map fieldText) ++ [125]

/-- Different names and their values, without quotes, in a text that a string
can hold. -/
structure FlatObject where
  fields : List FieldValue
  nonempty : fields ≠ []
  distinct : (fields.map Prod.fst).Nodup
  name : ∀ e ∈ fields, 34 ∉ e.1
  value : ∀ e ∈ fields, 34 ∉ e.2
  size : (objectText fields).length < npos32

-- ---------------------------------------------------------------------------
-- Searching in the text
-- ---------------------------------------------------------------------------

def restText : List FieldValue → List UInt8
  | [] => [125]
  | e :: es => 44 :: 34 :: (e.1 ++ 34 :: 58 :: 34 :: (e.2 ++ 34 :: restText es))

theorem objectText_cons (e : FieldValue) (es : List FieldValue) :
    objectText (e :: es) = 123 :: 34 :: (e.1 ++ 34 :: 58 :: 34 :: (e.2 ++ 34 :: restText es)) := by
  induction es generalizing e with
  | nil => simp [objectText, fieldText, restText]
  | cons e' es ih =>
    have h := ih e'
    simp only [objectText, fieldText, restText, List.map_cons, List.intercalate_cons_cons] at h ⊢
    simp only [List.cons_append, List.append_assoc, List.cons_inj_right, List.nil_append] at h ⊢
    rw [← h]

section
variable {f v u t a b R : List UInt8} {x : UInt8}

theorem cut_key (f : List UInt8) (a : UInt8) (ha : a = 123 ∨ a = 44) :
    cut (34 :: (f ++ [34, 58])) (a :: 34 :: (f ++ 34 :: 58 :: t)) = some ([a], t) := by
  have hne : a ≠ 34 := by rcases ha with rfl | rfl <;> decide
  have hpre : 34 :: (f ++ [34, 58]) <+: 34 :: (f ++ 34 :: 58 :: t) := ⟨t, by simp⟩
  rw [cut_cons_of_ne hne, cut, if_pos hpre]
  have hlen : (34 :: (f ++ 34 :: 58 :: t)).drop (34 :: (f ++ [34, 58])).length = t := by
    rw [show 34 :: (f ++ 34 :: 58 :: t) = (34 :: (f ++ [34, 58])) ++ t by simp, List.drop_left]
  rw [hlen]
  rfl

theorem cut_key_quote (hf : 34 ∉ f) :
    cut (34 :: (f ++ [34, 58])) (34 :: 44 :: 34 :: (f ++ 34 :: 58 :: t)) = some ([34, 44], t) := by
  have hpre : ¬ 34 :: (f ++ [34, 58]) <+: 34 :: 44 :: 34 :: (f ++ 34 :: 58 :: t) := by
    rw [List.cons_prefix_cons]
    rintro ⟨-, hp⟩
    cases f with
    | nil => exact absurd (List.cons_prefix_cons.mp hp).1 (by decide)
    | cons y f =>
      obtain ⟨rfl, hp⟩ := List.cons_prefix_cons.mp hp
      cases f with
      | nil =>
        have hcolon := (List.cons_prefix_cons.mp (List.cons_prefix_cons.mp hp).2).1
        exact absurd hcolon (by decide)
      | cons z f =>
        obtain ⟨rfl, -⟩ := List.cons_prefix_cons.mp hp
        simp at hf
  rw [cut, if_neg hpre, cut_key f 44 (.inr rfl)]
  rfl

theorem cut_value (hv : 34 ∉ v) (hcomma : v.getLast? ≠ some 44) :
    cut [44, 34] (v ++ 34 :: R) = (cut [44, 34] R).map fun r => (v ++ 34 :: r.1, r.2) := by
  induction v with
  | nil => exact cut_cons_of_ne (by decide)
  | cons x v ih =>
    rw [List.mem_cons, not_or] at hv
    have hpre : ¬ [44, 34] <+: x :: (v ++ 34 :: R) := by
      rw [List.cons_prefix_cons]
      rintro ⟨rfl, hp⟩
      cases v with
      | nil => exact hcomma rfl
      | cons y v =>
        obtain ⟨rfl, -⟩ := List.cons_prefix_cons.mp hp
        exact hv.2 List.mem_cons_self
    have hlast : v.getLast? ≠ some 44 := by
      cases v with
      | nil => exact nofun
      | cons y v => rwa [List.getLast?_cons_cons] at hcomma
    rw [List.cons_append, cut, if_neg hpre, ih hv.2 hlast, Option.map_map]
    rfl

theorem cut_comma (hu : 34 ∉ u) : cut [44, 34] (u ++ 44 :: 34 :: R) = some (u, R) := by
  induction u with
  | nil =>
    rw [List.nil_append, cut, if_pos ⟨R, rfl⟩]
    rfl
  | cons x u ih =>
    rw [List.mem_cons, not_or] at hu
    have hpre : ¬ [44, 34] <+: x :: (u ++ 44 :: 34 :: R) := by
      rw [List.cons_prefix_cons]
      rintro ⟨rfl, hp⟩
      cases u with
      | nil => exact absurd (List.cons_prefix_cons.mp hp).1 (by decide)
      | cons y u =>
        obtain ⟨rfl, -⟩ := List.cons_prefix_cons.mp hp
        exact hu.2 List.mem_cons_self
    rw [List.cons_append, cut, if_neg hpre, ih hu.2]
    rfl

end

-- ---------------------------------------------------------------------------
-- A field
-- ---------------------------------------------------------------------------

section
variable {strJson f v u t a b R : List UInt8} {pos : Nat} {x : UInt8}

theorem charAt_of_drop (h : strJson.drop pos = x :: t) : charAt strJson pos = some x := by
  have hlen := length_of_drop h
  have hget : (strJson.drop pos)[0]? = strJson[pos]? := List.getElem?_drop
  rw [h] at hget
  rw [charAt, if_neg (by omega), ← hget]
  rfl

theorem parseField_of_key {p : Progress} (hsize : strJson.length < npos32)
    (hkey : cut (34 :: (f ++ [34, 58])) (strJson.drop p.pos1) = some (a, 34 :: t)) :
    strJson.drop (p.pos1 + a.length + (f.length + 3)) = 34 :: t ∧
      parseField npos32 strJson p f =
        let pos := p.pos1 + a.length + (f.length + 3)
        let (pos1, found) := valueEnd npos32 strJson pos
        if !found then some ({ p with pos1 := pos1 }.unset f)
        else (charAt strJson (u32 (pos1 + 2 ^ 32 - 1))).bind fun c =>
          let pos1 := if c = 34 then u32 (pos1 + 2 ^ 32 - 1) else pos1
          (substr strJson (pos + 1) (u32 (pos1 + 2 ^ 32 - (pos + 1)))).bind fun value =>
            some ⟨pos1, p.ret + 1, p.mapJson.insert f value⟩ := by
  have hfields : text "\"" ++ f ++ text "\":" = 34 :: (f ++ [34, 58]) := rfl
  have hnpos : npos32 = 2 ^ 32 - 1 := rfl
  obtain ⟨hfind, hlt⟩ := u32_findStr hsize (List.cons_ne_nil _ _) hkey
  have hdrop : strJson.drop (p.pos1 + a.length + (f.length + 3)) = 34 :: t := by
    have hcut := (cut_eq_some hkey).1
    have hlen : (a ++ 34 :: (f ++ [34, 58])).length = a.length + (f.length + 3) := by simp
    rw [Nat.add_assoc, ← List.drop_drop, hcut, ← hlen, List.drop_left]
  have hend := length_of_drop hdrop
  have hnext : u32 (p.pos1 + a.length + (f.length + 3)) = p.pos1 + a.length + (f.length + 3) := by
    simp only [u32]
    omega
  have hquote : u32 (p.pos1 + a.length + (f.length + 3) + 1) =
      p.pos1 + a.length + (f.length + 3) + 1 := by
    simp only [u32]
    omega
  refine ⟨hdrop, ?_⟩
  have hflen : (34 :: (f ++ [34, 58])).length = f.length + 3 := by simp
  have hne : p.pos1 + a.length + (f.length + 3) ≠ npos32 := by omega
  -- a step by `rfl` makes the kernel unfold the positions
  simp -implicitDefEqProofs only [parseField, hfields, hfind, hflen, hnext, if_neg hlt.ne,
    if_neg hne, charAt_of_drop hdrop, Option.bind_eq_bind, Option.bind_some, if_true, hquote]

theorem parseField_of_value {p : Progress} {e : Nat} (hsize : strJson.length < npos32)
    (hkey : cut (34 :: (f ++ [34, 58])) (strJson.drop p.pos1) = some (a, 34 :: t))
    (hend : valueEnd npos32 strJson (p.pos1 + a.length + (f.length + 3)) = (e + 1, true))
    (he : strJson.drop e = x :: b) :
    let pos1 := if x = 34 then e else e + 1
    parseField npos32 strJson p f =
      some ⟨pos1, p.ret + 1, p.mapJson.insert f (t.take
        (u32 (pos1 + 2 ^ 32 - (p.pos1 + a.length + (f.length + 3) + 1))))⟩ := by
  obtain ⟨hdrop, hparse⟩ := parseField_of_key hsize hkey
  have hlen := length_of_drop hdrop
  have hlen' := length_of_drop he
  have hnpos : npos32 = 2 ^ 32 - 1 := rfl
  have hbefore : u32 (e + 1 + 2 ^ 32 - 1) = e := by
    simp only [u32]
    omega
  have htail : strJson.drop (p.pos1 + a.length + (f.length + 3) + 1) = t := by
    rw [← List.drop_drop, hdrop]
    rfl
  have hsub : ∀ n, substr strJson (p.pos1 + a.length + (f.length + 3) + 1) n = some (t.take n) := by
    intro n
    rw [substr, if_pos (by omega), htail]
  rw [hparse]
  simp -implicitDefEqProofs only [hend, Bool.not_true, Bool.false_eq_true, if_false, hbefore,
    charAt_of_drop he, Option.bind_some, hsub]

theorem valueEnd_of_comma (hsize : strJson.length < npos32)
    (h : cut [44, 34] (strJson.drop pos) = some (a, b)) :
    valueEnd npos32 strJson pos = (pos + a.length, true) := by
  obtain ⟨hfind, hlt⟩ := u32_findStr hsize (List.cons_ne_nil _ _) h
  rw [valueEnd, show text ",\"" = [44, 34] from rfl, hfind, if_neg hlt.ne]

theorem valueEnd_of_brace (hsize : strJson.length < npos32)
    (hcomma : cut [44, 34] (strJson.drop pos) = none)
    (h : cut [125] (strJson.drop pos) = some (a, b)) :
    valueEnd npos32 strJson pos = (pos + a.length, decide (b = [])) := by
  have hnone := u32_findStr_none (List.cons_ne_nil _ _) hcomma
  obtain ⟨hfind, hlt⟩ := u32_findStr hsize (List.cons_ne_nil _ _) h
  have hlen := length_of_cut h
  rw [List.length_drop, List.length_singleton] at hlen
  have hlast : last npos32 strJson = strJson.length - 1 := if_neg (by omega)
  have hend : (pos + a.length ≠ npos32 && pos + a.length = last npos32 strJson) =
      decide (b = []) := by
    have hiff : pos + a.length = strJson.length - 1 ↔ b = [] := by
      rw [← List.length_eq_zero_iff]
      omega
    rw [decide_eq_true hlt.ne, Bool.true_and, hlast]
    exact decide_eq_decide.mpr hiff
  rw [valueEnd, show text ",\"" = [44, 34] from rfl, show text "\x7d" = [125] from rfl, hnone,
    if_pos rfl, hfind]
  exact Prod.ext rfl hend

end

-- ---------------------------------------------------------------------------
-- The values that are read back
-- ---------------------------------------------------------------------------

/-- No comma at the end, and no brace in the value of the last field. -/
def Readable (v : List UInt8) (fs : List FieldValue) : Prop :=
  v.getLast? ≠ some 44 ∧ (fs = [] → 125 ∉ v)

section
variable {strJson f v a : List UInt8} {fs : List FieldValue} {p : Progress}

theorem parseField_of_readable (hsize : strJson.length < npos32) (hv : 34 ∉ v)
    (hkey : cut (34 :: (f ++ [34, 58])) (strJson.drop p.pos1) =
      some (a, 34 :: (v ++ 34 :: restText fs)))
    (h : Readable v fs) :
    ∃ q, parseField npos32 strJson p f = some q ∧ q.ret = p.ret + 1 ∧
      q.mapJson = p.mapJson.insert f v ∧ strJson.drop q.pos1 = 34 :: restText fs := by
  obtain ⟨hdrop, -⟩ := parseField_of_key hsize hkey
  have hend : valueEnd npos32 strJson (p.pos1 + a.length + (f.length + 3)) =
      (p.pos1 + a.length + (f.length + 3) + (v.length + 1) + 1, true) := by
    have hcomma : cut [44, 34] (strJson.drop (p.pos1 + a.length + (f.length + 3))) =
        (cut [44, 34] (restText fs)).map fun r => (34 :: (v ++ 34 :: r.1), r.2) := by
      rw [hdrop, cut_cons_of_ne (by decide), cut_value hv h.1, Option.map_map]
      rfl
    cases fs with
    | nil =>
      have hbrace : cut [125] (strJson.drop (p.pos1 + a.length + (f.length + 3))) =
          some (34 :: v ++ [34], []) := by
        rw [hdrop, show 34 :: (v ++ 34 :: restText []) = (34 :: v ++ [34]) ++ 125 :: [] by
          simp [restText], cut_singleton]
        simp [h.2 rfl]
      rw [valueEnd_of_brace hsize hcomma hbrace]
      simp [Nat.add_assoc]
    | cons e es =>
      rw [restText, cut, if_pos ⟨_, rfl⟩, Option.map_some] at hcomma
      rw [valueEnd_of_comma hsize hcomma]
      simp [Nat.add_assoc]
  have hquote : strJson.drop (p.pos1 + a.length + (f.length + 3) + (v.length + 1)) =
      34 :: restText fs := by
    rw [← List.drop_drop, hdrop, List.drop_succ_cons, List.drop_left]
  have hlen := length_of_drop hquote
  have hnpos : npos32 = 2 ^ 32 - 1 := rfl
  have htake : u32 (p.pos1 + a.length + (f.length + 3) + (v.length + 1) + 2 ^ 32 -
      (p.pos1 + a.length + (f.length + 3) + 1)) = v.length := by
    simp only [u32]
    omega
  have hparse := parseField_of_value hsize hkey hend hquote
  simp only [if_true] at hparse
  rw [htake, List.take_left] at hparse
  exact ⟨_, hparse, rfl, rfl, hquote⟩

theorem parseField_of_comma {u : List UInt8} (hsize : strJson.length < npos32) (hu : 34 ∉ u)
    (hkey : cut (34 :: (f ++ [34, 58])) (strJson.drop p.pos1) =
      some (a, 34 :: (u ++ [44] ++ 34 :: restText fs))) :
    ∃ q value, parseField npos32 strJson p f = some q ∧
      q.mapJson = p.mapJson.insert f value ∧ value ≠ u ++ [44] := by
  obtain ⟨hdrop, -⟩ := parseField_of_key hsize hkey
  have hend : valueEnd npos32 strJson (p.pos1 + a.length + (f.length + 3)) =
      (p.pos1 + a.length + (f.length + 3) + u.length + 1, true) := by
    have hcomma : cut [44, 34] (strJson.drop (p.pos1 + a.length + (f.length + 3))) =
        some (34 :: u, restText fs) := by
      rw [hdrop, cut_cons_of_ne (by decide), List.append_assoc, List.singleton_append,
        cut_comma hu]
      rfl
    rw [valueEnd_of_comma hsize hcomma]
    rfl
  have hlen := length_of_drop hdrop
  have hnpos : npos32 = 2 ^ 32 - 1 := rfl
  rcases List.eq_nil_or_concat u with rfl | ⟨u, y, rfl⟩
  · -- the quote in front of the comma opens the value
    have hparse := parseField_of_value hsize hkey hend hdrop
    simp only [if_true] at hparse
    refine ⟨_, _, hparse, rfl, fun he => ?_⟩
    have htake : u32 (p.pos1 + a.length + (f.length + 3) + ([] : List UInt8).length + 2 ^ 32 -
        (p.pos1 + a.length + (f.length + 3) + 1)) = npos32 := by
      simp only [u32, List.length_nil]
      omega
    have hlong := congrArg List.length he
    simp only [List.nil_append, List.singleton_append, List.length_cons] at hlen hlong
    rw [htake, List.take_of_length_le (by simp only [List.length_cons]; omega)] at hlong
    simp at hlong
  · rw [List.concat_eq_append] at *
    have hy : y ≠ 34 := fun hy => hu (by simp [hy])
    have hlast : strJson.drop (p.pos1 + a.length + (f.length + 3) + (u ++ [y]).length) =
        y :: 44 :: 34 :: restText fs := by
      rw [← List.drop_drop, hdrop, List.length_append, List.length_singleton,
        List.drop_succ_cons, List.append_assoc, List.append_assoc, List.drop_left]
      rfl
    have hparse := parseField_of_value hsize hkey hend hlast
    simp only [if_neg hy] at hparse
    refine ⟨_, _, hparse, rfl, fun he => ?_⟩
    have htake : u32 (p.pos1 + a.length + (f.length + 3) + (u ++ [y]).length + 1 + 2 ^ 32 -
        (p.pos1 + a.length + (f.length + 3) + 1)) = (u ++ [y]).length := by
      simp only [List.length_append, List.length_cons, List.length_nil] at hlen ⊢
      simp only [u32]
      omega
    rw [htake, List.append_assoc (u ++ [y]), List.take_left] at he
    simp at he

theorem parseField_of_brace (hsize : strJson.length < npos32) (hv : 34 ∉ v)
    (hcomma : v.getLast? ≠ some 44) (hbrace : 125 ∈ v)
    (hkey : cut (34 :: (f ++ [34, 58])) (strJson.drop p.pos1) =
      some (a, 34 :: (v ++ 34 :: restText []))) :
    ∃ q value, parseField npos32 strJson p f = some q ∧
      q.mapJson = p.mapJson.insert f value ∧ value ≠ v := by
  obtain ⟨hdrop, hparse⟩ := parseField_of_key hsize hkey
  obtain ⟨c, d, rfl, hc⟩ := List.eq_append_cons_of_mem hbrace
  have hnone : cut [44, 34] (strJson.drop (p.pos1 + a.length + (f.length + 3))) = none := by
    rw [hdrop, cut_cons_of_ne (by decide), cut_value hv hcomma]
    rfl
  have hfirst : cut [125] (strJson.drop (p.pos1 + a.length + (f.length + 3))) =
      some (34 :: c, d ++ 34 :: restText []) := by
    rw [hdrop, show 34 :: (c ++ 125 :: d ++ 34 :: restText []) =
      (34 :: c) ++ 125 :: (d ++ 34 :: restText []) by simp, cut_singleton]
    simpa using hc
  have hend := valueEnd_of_brace hsize hnone hfirst
  have hfalse : decide (d ++ 34 :: restText [] = []) = false := by simp
  rw [hfalse] at hend
  simp -implicitDefEqProofs only [hend, Bool.not_false, if_true] at hparse
  exact ⟨_, [], hparse, rfl, by simp⟩

/-- A field, well or badly read. -/
theorem parseField_iff (hsize : strJson.length < npos32) (hv : 34 ∉ v)
    (hkey : cut (34 :: (f ++ [34, 58])) (strJson.drop p.pos1) =
      some (a, 34 :: (v ++ 34 :: restText fs))) :
    (Readable v fs ∧ ∃ q, parseField npos32 strJson p f = some q ∧ q.ret = p.ret + 1 ∧
        q.mapJson = p.mapJson.insert f v ∧ strJson.drop q.pos1 = 34 :: restText fs) ∨
      (¬Readable v fs ∧ ∃ q value, parseField npos32 strJson p f = some q ∧
        q.mapJson = p.mapJson.insert f value ∧ value ≠ v) := by
  by_cases hcomma : v.getLast? = some 44
  · obtain ⟨u, rfl⟩ := List.getLast?_eq_some_iff.mp hcomma
    have hu : 34 ∉ u := fun hu => hv (List.mem_append_left _ hu)
    exact .inr ⟨fun h => h.1 hcomma, parseField_of_comma hsize hu hkey⟩
  · by_cases hlast : fs = [] → 125 ∉ v
    · exact .inl ⟨⟨hcomma, hlast⟩, parseField_of_readable hsize hv hkey ⟨hcomma, hlast⟩⟩
    · push Not at hlast
      obtain ⟨rfl, hbrace⟩ := hlast
      exact .inr ⟨fun h => h.2 rfl hbrace, parseField_of_brace hsize hv hcomma hbrace hkey⟩

end

-- ---------------------------------------------------------------------------
-- All fields
-- ---------------------------------------------------------------------------

def AllReadable (fields : List FieldValue) : Prop :=
  (∀ e ∈ fields, e.2.getLast? ≠ some 44) ∧ ∀ e ∈ fields.getLast?, 125 ∉ e.2

theorem allReadable_cons (e : FieldValue) (es : List FieldValue) :
    AllReadable (e :: es) ↔ Readable e.2 es ∧ AllReadable es := by
  cases es with
  | nil => simp [AllReadable, Readable]
  | cons e' es =>
    rw [AllReadable, AllReadable, List.getLast?_cons_cons, List.forall_mem_cons, Readable, and_assoc]
    simp

section
variable {strJson : List UInt8}

theorem lookup_parseFields {fields : List (List UInt8)} {p q : Progress} {f : List UInt8}
    (h : fields.foldlM (parseField npos32 strJson) p = some q) (hf : f ∉ fields) :
    q.mapJson.lookup f = p.mapJson.lookup f := by
  induction fields generalizing p with
  | nil =>
    cases h
    rfl
  | cons field fields ih =>
    rw [List.foldlM_cons, Option.bind_eq_bind, Option.bind_eq_some_iff] at h
    obtain ⟨next, hstep, hrest⟩ := h
    obtain ⟨⟨value, hmap⟩, -⟩ := parseField_spec hstep
    rw [List.mem_cons, not_or] at hf
    rw [ih hrest hf.2, hmap, OrdMap.lookup_insert_ne hf.1]

def Ahead (strJson : List UInt8) (pos : Nat) : List FieldValue → Prop
  | [] => True
  | e :: es => ∃ a, cut (34 :: (e.1 ++ [34, 58])) (strJson.drop pos) =
      some (a, 34 :: (e.2 ++ 34 :: restText es))

theorem ahead_of_drop {fields : List FieldValue} {pos : Nat} (hname : ∀ e ∈ fields, 34 ∉ e.1)
    (h : strJson.drop pos = 34 :: restText fields) : Ahead strJson pos fields := by
  cases fields with
  | nil => trivial
  | cons e es =>
    refine ⟨[34, 44], ?_⟩
    rw [h, restText]
    exact cut_key_quote (hname e List.mem_cons_self)

structure ReadsBack (fields : List FieldValue) (p q : Progress) : Prop where
  ret : q.ret = p.ret + fields.length
  lookup : ∀ e ∈ fields, q.mapJson.lookup e.1 = some e.2

theorem parseFields_iff (hsize : strJson.length < npos32) {fields : List FieldValue}
    (hdistinct : (fields.map Prod.fst).Nodup) (hname : ∀ e ∈ fields, 34 ∉ e.1)
    (hvalue : ∀ e ∈ fields, 34 ∉ e.2) {p : Progress} (hahead : Ahead strJson p.pos1 fields) :
    (∃ q, (fields.map Prod.fst).foldlM (parseField npos32 strJson) p = some q ∧
        ReadsBack fields p q) ↔ AllReadable fields := by
  induction fields generalizing p with
  | nil =>
    refine iff_of_true ⟨p, rfl, by simp, ?_⟩ ⟨?_, ?_⟩
    · exact fun e he => absurd he List.not_mem_nil
    · exact fun e he => absurd he List.not_mem_nil
    · exact nofun
  | cons e es ih =>
    obtain ⟨a, hkey⟩ := hahead
    rw [List.map_cons, List.nodup_cons] at hdistinct
    rw [List.forall_mem_cons] at hname hvalue
    rw [allReadable_cons]
    rcases parseField_iff hsize hvalue.1 hkey with
      ⟨hread, q, hstep, hret, hmap, hdrop⟩ | ⟨hread, q, value, hstep, hmap, hne⟩
    · have hrest := ih hdistinct.2 hname.2 hvalue.2 (p := q) (ahead_of_drop hname.2 hdrop)
      rw [and_iff_right hread, ← hrest]
      rw [List.map_cons, List.foldlM_cons, hstep, Option.bind_eq_bind, Option.bind_some]
      refine exists_congr fun r => and_congr_right fun hrun => ?_
      have hlookup : r.mapJson.lookup e.1 = some e.2 := by
        rw [lookup_parseFields hrun hdistinct.1, hmap, OrdMap.lookup_insert_self]
      have hlen : ((e :: es).length : Int) = es.length + 1 := rfl
      constructor
      · rintro ⟨hr, hl⟩
        rw [List.forall_mem_cons] at hl
        exact ⟨by omega, hl.2⟩
      · rintro ⟨hr, hl⟩
        exact ⟨by omega, List.forall_mem_cons.mpr ⟨hlookup, hl⟩⟩
    · refine iff_of_false ?_ fun h => hread h.1
      rintro ⟨r, hrun, -, hl⟩
      rw [List.map_cons, List.foldlM_cons, hstep, Option.bind_eq_bind, Option.bind_some] at hrun
      have hlookup := hl e List.mem_cons_self
      rw [lookup_parseFields hrun hdistinct.1, hmap, OrdMap.lookup_insert_self] at hlookup
      exact hne (Option.some.inj hlookup)

end

def Decodes (o : FlatObject) : Prop :=
  ∃ mapJson, ParseJson npos32 (o.fields.map Prod.fst) (objectText o.fields) =
      some ((o.fields.length : Int), mapJson) ∧
    ∀ e ∈ o.fields, mapJson.lookup e.1 = some e.2

theorem decodes_iff (o : FlatObject) : Decodes o ↔ AllReadable o.fields := by
  have hahead : Ahead (objectText o.fields) 0 o.fields := by
    cases hfields : o.fields with
    | nil => trivial
    | cons e es =>
      refine ⟨[123], ?_⟩
      rw [List.drop_zero, objectText_cons]
      exact cut_key e.1 123 (.inl rfl)
  rw [← parseFields_iff o.size o.distinct o.name o.value (p := ⟨0, 0, .empty⟩) hahead]
  constructor
  · rintro ⟨mapJson, hparse, hl⟩
    obtain ⟨q, hrun, he⟩ := Option.map_eq_some_iff.mp hparse
    obtain ⟨hret, rfl⟩ := Prod.mk.inj he
    exact ⟨q, hrun, by rw [hret]; simp, hl⟩
  · rintro ⟨q, hrun, hret, hl⟩
    refine ⟨q.mapJson, Option.map_eq_some_iff.mpr ⟨q, hrun, ?_⟩, hl⟩
    rw [hret]
    simp

/-- The value that ends with a comma loses it. -/
theorem not_decodes_comma : ¬∀ o : FlatObject, Decodes o := by
  intro h
  obtain ⟨mapJson, hparse, hl⟩ := h
    { fields := [(text "content", text "well,")]
      nonempty := by decide
      distinct := by decide
      name := by decide
      value := by decide
      size := by decide }
  have hvalue : (ParseJson npos32 [text "content"] (objectText [(text "content", text "well,")])).map
      (fun r => r.2.lookup (text "content")) = some (some (text "well")) := by decide +kernel
  rw [show [text "content"] = [(text "content", text "well,")].map Prod.fst from rfl, hparse,
    Option.map_some, hl _ List.mem_cons_self] at hvalue
  exact absurd hvalue (by decide)

end TextMining.CJParser
