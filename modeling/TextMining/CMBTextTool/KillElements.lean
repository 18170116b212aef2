import TextMining.Lib.Erasing
import TextMining.StringTool

/-!
# Removing elements

`KillElements` puts a blank in place of an element with its delimiters and goes
on at the old end of the first delimiter. A delimiter of more than one byte
lets a part of the text behind the blank go unsearched.
-/

namespace TextMining.CMBTextTool

open StringTool Occurrence

def killElementsLoop (strBegin strEnd : List UInt8) :
    Nat → List UInt8 → Nat → Nat → List (List UInt8) →
      Option (List UInt8 × Nat × List (List UInt8))
  | 0, _, _, _, _ => none
  | fuel + 1, strText, prepos, count, vecElements =>
    if prepos = npos32 then some (strText, count, vecElements)
    else
      let prepos := u32 (prepos + strBegin.length)
      if prepos = npos32 then some (strText, count, vecElements)
      else
        let postpos := u32 (findStr npos32 strText strEnd prepos)
        if postpos = npos32 then some (strText, count, vecElements)
        else
          match substr strText prepos (u32 (postpos + 2 ^ 32 - prepos)) with
          | none => none
          | some element =>
            let strText := replace strText (u32 (prepos + 2 ^ 32 - strBegin.length))
              (u32 (postpos + strEnd.length + 2 ^ 32 - prepos + strBegin.length)) [32]
            killElementsLoop strBegin strEnd fuel strText
              (u32 (findStr npos32 strText strBegin prepos)) (count + 1) (vecElements ++ [element])

/-- The text, the number of elements and the elements, which are those given
when a delimiter is empty. -/
def KillElements (strText strBegin strEnd : List UInt8) (vecElements : List (List UInt8)) :
    Option (List UInt8 × Nat × List (List UInt8)) :=
  if strBegin.length = 0 ∨ strEnd.length = 0 then some (strText, 0, vecElements)
  else killElementsLoop strBegin strEnd (strText.length + 1) strText
    (u32 (findStr npos32 strText strBegin 0)) 0 []

/-- Two delimiters without the blank that replaces an element. -/
structure Delimiters where
  strBegin : List UInt8
  strEnd : List UInt8
  begin_ne_nil : strBegin ≠ []
  end_ne_nil : strEnd ≠ []
  ne : strBegin ≠ strEnd
  blank_begin : 32 ∉ strBegin
  blank_end : 32 ∉ strEnd

namespace Delimiters

variable (d : Delimiters)

def scanner : Scanner UInt8 where
  next t := (cut d.strBegin t).bind fun p => (cut d.strEnd p.2).map fun q =>
    (p.1, d.strBegin ++ q.1 ++ d.strEnd, q.2)
  split h := by
    obtain ⟨p, hp, h⟩ := Option.bind_eq_some_iff.mp h
    obtain ⟨q, hq, he⟩ := Option.map_eq_some_iff.mp h
    cases he
    rw [(cut_eq_some hp).1, (cut_eq_some hq).1]
    simp only [List.append_assoc]
  nonempty h := by
    obtain ⟨p, -, h⟩ := Option.bind_eq_some_iff.mp h
    obtain ⟨q, -, he⟩ := Option.map_eq_some_iff.mp h
    cases he
    simp [d.begin_ne_nil]

/-- The number of bytes behind an element that are not searched. -/
def unsearched (_ : List UInt8) : Nat := d.strBegin.length - 1

-- ---------------------------------------------------------------------------
-- The loop
-- ---------------------------------------------------------------------------

section
variable {d} {strText a b e r t : List UInt8} {pos : Nat}

theorem next_of_cut (hp : cut d.strBegin t = some (a, b)) (hq : cut d.strEnd b = some (e, r)) :
    d.scanner.next t = some (a, d.strBegin ++ e ++ d.strEnd, r) := by
  simp only [scanner, hp, Option.bind_some, hq, Option.map_some]

theorem next_of_cut_none (hp : cut d.strBegin t = none) : d.scanner.next t = none := by
  simp only [scanner, hp, Option.bind_none]

theorem next_of_cut_end_none (hp : cut d.strBegin t = some (a, b)) (hq : cut d.strEnd b = none) :
    d.scanner.next t = none := by
  simp only [scanner, hp, Option.bind_some, hq, Option.map_none]

theorem replace_element {n : Nat} (hpos : pos ≤ strText.length)
    (hdrop : strText.drop pos = d.strBegin ++ e ++ d.strEnd ++ r)
    (hn : n = d.strBegin.length + e.length + d.strEnd.length) :
    let next := replace strText pos n [32]
    next.length < strText.length ∧
      next.take (pos + d.strBegin.length) =
        strText.take pos ++ 32 :: r.take (d.strBegin.length - 1) ∧
      next.drop (pos + d.strBegin.length) = r.drop (d.strBegin.length - 1) := by
  have hbegin := List.length_pos_iff.mpr d.begin_ne_nil
  have hend := List.length_pos_iff.mpr d.end_ne_nil
  have hlen := congrArg List.length hdrop
  have hstart : (strText.take pos).length = pos := by
    rw [List.length_take]
    omega
  have hrest : strText.drop (pos + n) = r := by
    have helement : n = (d.strBegin ++ e ++ d.strEnd).length := by
      simp only [hn, List.length_append]
    rw [← List.drop_drop, hdrop, helement, List.drop_left]
  obtain ⟨k, hk⟩ := Nat.exists_eq_succ_of_ne_zero (Nat.pos_iff_ne_zero.mp hbegin)
  have hnext : replace strText pos n [32] = strText.take pos ++ 32 :: r := by
    rw [replace, hrest, List.append_assoc]
    rfl
  simp only [List.length_drop, List.length_append] at hlen
  intro next
  simp only [next]
  rw [hnext, hk, Nat.succ_sub_one]
  refine ⟨?_, ?_, ?_⟩
  · rw [List.length_append, List.length_cons, hstart]
    omega
  · rw [List.take_append, hstart, Nat.add_sub_cancel_left, List.take_of_length_le (by omega),
      List.take_succ_cons]
  · rw [List.drop_append, hstart, Nat.add_sub_cancel_left, List.drop_of_length_le (by omega),
      List.drop_succ_cons, List.nil_append]

/-- The loop erases the elements that the scanner finds in what is not settled
yet, and counts what it collects. -/
theorem killElementsLoop_eq {fuel : Nat} (hsize : strText.length < npos32)
    (hfuel : strText.length < fuel) (pos count : Nat) (vecElements : List (List UInt8)) :
    ∃ elements, killElementsLoop d.strBegin d.strEnd fuel strText
        (u32 (findStr npos32 strText d.strBegin pos)) count vecElements =
      some (strText.take pos ++ d.scanner.erase 32 d.unsearched (strText.drop pos),
        count + elements.length, vecElements ++ elements) := by
  induction fuel generalizing strText pos count vecElements with
  | zero => exact absurd hfuel (Nat.not_lt_zero _)
  | succ fuel ih =>
    have hnpos : npos32 = 2 ^ 32 - 1 := rfl
    have hbegin := List.length_pos_iff.mpr d.begin_ne_nil
    rw [killElementsLoop]
    cases hp : cut d.strBegin (strText.drop pos) with
    | none =>
      rw [if_pos (u32_findStr_none d.begin_ne_nil hp), Scanner.erase_of_none (next_of_cut_none hp),
        List.take_append_drop]
      exact ⟨[], by simp⟩
    | some p =>
      obtain ⟨a, b⟩ := p
      obtain ⟨hstart, hlt⟩ := u32_findStr hsize d.begin_ne_nil hp
      have hsplit := (cut_eq_some hp).1
      have hlen := length_of_cut hp
      rw [List.length_drop] at hlen
      have hpre : u32 (pos + a.length + d.strBegin.length) =
          pos + a.length + d.strBegin.length := by
        simp only [u32]
        omega
      have hdrop : strText.drop (pos + a.length) = d.strBegin ++ b := by
        rw [← List.drop_drop, hsplit, List.append_assoc, List.drop_left]
      have hdrop' : strText.drop (pos + a.length + d.strBegin.length) = b := by
        rw [← List.drop_drop, hdrop, List.drop_left]
      rw [hstart, if_neg hlt.ne]
      simp only [hpre]
      rw [if_neg (by omega)]
      cases hq : cut d.strEnd b with
      | none =>
        have hnone := u32_findStr_none d.end_ne_nil (hdrop' ▸ hq)
        rw [if_pos hnone, Scanner.erase_of_none (next_of_cut_end_none hp hq),
          List.take_append_drop]
        exact ⟨[], by simp⟩
      | some q =>
        obtain ⟨e, r⟩ := q
        obtain ⟨hpost, hlt'⟩ := u32_findStr hsize d.end_ne_nil (hdrop' ▸ hq)
        have hlen' := length_of_cut hq
        have hsub : substr strText (pos + a.length + d.strBegin.length)
            (u32 (pos + a.length + d.strBegin.length + e.length + 2 ^ 32 -
              (pos + a.length + d.strBegin.length))) = some e := by
          have hn : u32 (pos + a.length + d.strBegin.length + e.length + 2 ^ 32 -
              (pos + a.length + d.strBegin.length)) = e.length := by
            simp only [u32]
            omega
          rw [substr, if_pos (by omega), hn, hdrop', (cut_eq_some hq).1, List.append_assoc,
            List.take_left]
        have hback : u32 (pos + a.length + d.strBegin.length + 2 ^ 32 - d.strBegin.length) =
            pos + a.length := by
          simp only [u32]
          omega
        have hn : u32 (pos + a.length + d.strBegin.length + e.length + d.strEnd.length + 2 ^ 32 -
            (pos + a.length + d.strBegin.length) + d.strBegin.length) =
            d.strBegin.length + e.length + d.strEnd.length := by
          simp only [u32]
          omega
        have helement : strText.drop (pos + a.length) = d.strBegin ++ e ++ d.strEnd ++ r := by
          rw [hdrop, (cut_eq_some hq).1]
          simp only [List.append_assoc]
        have hbefore : strText.take (pos + a.length) = strText.take pos ++ a := by
          rw [List.take_add, hsplit, List.append_assoc, List.take_left]
        obtain ⟨hshort, htake, hrest⟩ := replace_element (by omega) helement hn
        rw [hpost, if_neg hlt'.ne, hsub]
        simp only [hback]
        obtain ⟨elements, hloop⟩ := ih (hshort.trans hsize) (by omega)
          (pos + a.length + d.strBegin.length) (count + 1) (vecElements ++ [e])
        refine ⟨e :: elements, ?_⟩
        rw [hloop, htake, hrest, hbefore, Scanner.erase_of_some (next_of_cut hp hq)]
        simp only [unsearched, List.append_assoc, List.cons_append, List.nil_append,
          List.length_cons, Option.some.injEq, Prod.mk.injEq, true_and, and_true]
        omega

theorem KillElements_eq (strText : String32) (vecElements : List (List UInt8)) :
    ∃ elements, KillElements strText.1 d.strBegin d.strEnd vecElements =
      some (d.scanner.erase 32 d.unsearched strText.1, elements.length, elements) := by
  have hnil : ¬(d.strBegin.length = 0 ∨ d.strEnd.length = 0) := by
    simp [d.begin_ne_nil, d.end_ne_nil]
  obtain ⟨elements, hloop⟩ :=
    killElementsLoop_eq (d := d) strText.2 (Nat.lt_succ_self _) 0 0 []
  refine ⟨elements, ?_⟩
  rw [KillElements, if_neg hnil, hloop, List.take_zero, List.drop_zero, List.nil_append,
    List.nil_append, Nat.zero_add]

end

-- ---------------------------------------------------------------------------
-- What is left
-- ---------------------------------------------------------------------------

def Pair (t : List UInt8) : Prop := ∃ p m q, t = p ++ d.strBegin ++ m ++ d.strEnd ++ q

/-- In one of the parts a first delimiter, whose place satisfies `P`, is
followed by a second one in the same part or a later one. -/
def Followed (P : Nat → Prop) : List (List UInt8) → Prop
  | [] => False
  | g :: gs =>
    (∃ p m, g = p ++ d.strBegin ++ m ∧ P p.length ∧
      (d.strEnd <:+: m ∨ ∃ g' ∈ gs, d.strEnd <:+: g')) ∨ Followed P gs

section
variable {d} {t g a b : List UInt8} {gs : List (List UInt8)}

theorem pair_iff_exists : d.Pair t ↔ ∃ p s, t = p ++ d.strBegin ++ s ∧ d.strEnd <:+: s := by
  constructor
  · rintro ⟨p, m, q, rfl⟩
    exact ⟨p, m ++ d.strEnd ++ q, by simp only [List.append_assoc], m, q, rfl⟩
  · rintro ⟨p, s, rfl, m, q, rfl⟩
    exact ⟨p, m, q, by simp only [List.append_assoc]⟩

theorem next_eq_none_iff : d.scanner.next t = none ↔ ¬d.Pair t := by
  rw [pair_iff_exists]
  cases hp : cut d.strBegin t with
  | none =>
    refine iff_of_true (next_of_cut_none hp) ?_
    rintro ⟨p, s, rfl, -⟩
    exact cut_eq_none.mp hp ⟨p, s, rfl⟩
  | some q =>
    obtain ⟨a, b⟩ := q
    obtain ⟨ht, hfirst⟩ := cut_eq_some hp
    cases hq : cut d.strEnd b with
    | none =>
      refine iff_of_true (next_of_cut_end_none hp hq) ?_
      rintro ⟨p, s, hps, hs⟩
      -- the first delimiter that is found is the first one of all
      have hle : a.length ≤ p.length := by
        refine Nat.le_of_not_lt fun hlt => hfirst _ hlt ?_
        rw [hps, List.append_assoc, List.drop_left]
        exact List.prefix_append _ _
      have hlen := congrArg List.length (ht.symm.trans hps)
      simp only [List.length_append] at hlen
      have hsuffix : s <:+ b := List.suffix_of_suffix_length_le ⟨_, hps.symm⟩ ⟨_, ht.symm⟩ (by omega)
      exact cut_eq_none.mp hq (hs.trans hsuffix.isInfix)
    | some e =>
      refine iff_of_false (fun h => ?_) (not_not.mpr ?_)
      · rw [next_of_cut hp hq] at h
        cases h
      · obtain ⟨hb, -⟩ := cut_eq_some hq
        exact ⟨a, b, ht, e.1, e.2, hb.symm⟩

theorem pair_append_blank (g t : List UInt8) : d.Pair (g ++ 32 :: t) ↔
    (∃ p m, g = p ++ d.strBegin ++ m ∧ (d.strEnd <:+: m ∨ d.strEnd <:+: t)) ∨ d.Pair t := by
  simp only [pair_iff_exists]
  constructor
  · rintro ⟨p, s, hs, hend⟩
    rcases List.append_eq_append_iff.mp hs with ⟨c, hpc, hc⟩ | ⟨m, hg, hm⟩
    · cases c with
      | nil =>
        rw [List.append_nil] at hpc
        rw [List.nil_append] at hc
        refine .inl ⟨p, [], by rw [hpc, List.append_nil], .inr ?_⟩
        rw [← hc, ← List.nil_append (32 :: t), infix_append_cons d.blank_end] at hend
        exact hend.resolve_left fun h => d.end_ne_nil (List.infix_nil.mp h)
      | cons x c =>
        obtain ⟨rfl, rfl⟩ := List.cons_eq_cons.mp hc
        rcases List.append_eq_append_iff.mp hpc with ⟨c', hgc, hb⟩ | ⟨c', hpg, hb⟩
        · exact absurd (hb ▸ by simp) d.blank_begin
        · cases c' with
          | nil =>
            have hb' : d.strBegin = 32 :: c := hb.symm
            exact absurd (hb' ▸ List.mem_cons_self) d.blank_begin
          | cons y c' =>
            obtain ⟨rfl, rfl⟩ := List.cons_eq_cons.mp hb
            exact .inr ⟨c', s, rfl, hend⟩
    · rw [hm, infix_append_cons d.blank_end] at hend
      exact .inl ⟨p, m, hg, hend⟩
  · rintro (⟨p, m, rfl, hend⟩ | ⟨p, s, rfl, hend⟩)
    · exact ⟨p, m ++ 32 :: t, by simp only [List.append_assoc],
        (infix_append_cons d.blank_end).mpr hend⟩
    · exact ⟨g ++ 32 :: p, s, by simp only [List.append_assoc, List.cons_append], hend⟩

theorem infix_intercalate_blank {w : List UInt8} (hw : 32 ∉ w) (hne : w ≠ []) :
    w <:+: [32].intercalate gs ↔ ∃ g ∈ gs, w <:+: g := by
  induction gs with
  | nil => simp [hne]
  | cons g gs ih =>
    cases gs with
    | nil => simp
    | cons g' gs =>
      rw [List.intercalate_cons_cons, List.append_assoc, List.singleton_append,
        infix_append_cons hw, ih]
      simp only [List.exists_mem_cons_iff]

theorem pair_intercalate : d.Pair ([32].intercalate gs) ↔ d.Followed (fun _ => True) gs := by
  induction gs with
  | nil =>
    refine iff_of_false ?_ id
    rintro ⟨p, m, q, h⟩
    simp [d.begin_ne_nil] at h
  | cons g gs ih =>
    cases gs with
    | nil => simp [pair_iff_exists, Followed]
    | cons g' gs =>
      rw [List.intercalate_cons_cons, List.append_assoc, List.singleton_append, pair_append_blank,
        ih, infix_intercalate_blank d.blank_end d.end_ne_nil]
      simp only [Followed, true_and]

theorem exists_cut_of_next {l r : List UInt8} (h : d.scanner.next t = some (a, l, r)) :
    ∃ b, cut d.strBegin t = some (a, b) := by
  obtain ⟨p, hp, h⟩ := Option.bind_eq_some_iff.mp h
  obtain ⟨q, -, he⟩ := Option.map_eq_some_iff.mp h
  cases he
  exact ⟨p.2, hp⟩

theorem not_begun_of_kept {h p m : List UInt8}
    (hkept : d.scanner.kept d.unsearched t = h :: gs) (hh : h = p ++ d.strBegin ++ m) :
    ¬(d.strEnd <:+: m ∨ ∃ g ∈ gs, d.strEnd <:+: g) := by
  cases hnext : d.scanner.next t with
  | none =>
    rw [Scanner.kept_of_none hnext] at hkept
    cases hkept
    rintro (hend | ⟨g, hg, -⟩)
    · exact next_eq_none_iff.mp hnext (pair_iff_exists.mpr ⟨p, m, hh, hend⟩)
    · cases hg
  | some q =>
    obtain ⟨a, l, r⟩ := q
    rw [Scanner.kept_of_some hnext] at hkept
    cases hkept
    obtain ⟨b, hcut⟩ := exists_cut_of_next hnext
    exact absurd ⟨p, m, hh.symm⟩ (not_infix_of_cut hcut d.begin_ne_nil)

/-- Among the parts that are left, only bytes that are not searched can begin a
pair. -/
theorem followed_kept {u h : List UInt8} (hu : u.length ≤ d.strBegin.length - 1)
    (hkept : d.scanner.kept d.unsearched t = h :: gs) :
    d.Followed (fun _ => True) ((u ++ h) :: gs) ↔
      d.Followed (fun n => n < d.strBegin.length - 1) ((u ++ h) :: gs) := by
  induction hn : t.length using Nat.strong_induction_on generalizing t u h gs with
  | _ n ih =>
    refine or_congr ⟨?_, ?_⟩ ?_
    · rintro ⟨p, m, hg, -, hend⟩
      refine ⟨p, m, hg, Nat.lt_of_not_le fun hp => ?_, hend⟩
      rw [List.append_assoc] at hg
      rcases List.append_eq_append_iff.mp hg with ⟨p', hp', hh⟩ | ⟨c, huc, hc⟩
      · rw [← List.append_assoc] at hh
        exact not_begun_of_kept hkept hh hend
      · have hc' : c = [] := by
          have hlen := congrArg List.length huc
          rw [List.length_append] at hlen
          exact List.length_eq_zero_iff.mp (by omega)
        rw [hc', List.nil_append] at hc
        exact not_begun_of_kept (p := []) hkept hc.symm hend
    · rintro ⟨p, m, hg, -, hend⟩
      exact ⟨p, m, hg, trivial, hend⟩
    · cases hnext : d.scanner.next t with
      | none =>
        rw [Scanner.kept_of_none hnext] at hkept
        cases hkept
        exact Iff.rfl
      | some q =>
        obtain ⟨a, l, r⟩ := q
        obtain ⟨h', gs', hrest⟩ := d.scanner.exists_kept d.unsearched (r.drop (d.unsearched l))
        rw [Scanner.kept_of_some hnext, hrest, List.modifyHead_cons] at hkept
        cases hkept
        exact ih _ (hn ▸ Scanner.length_lt hnext (d.unsearched l)) (List.length_take_le _ _) hrest rfl

theorem pair_erase_iff (t : List UInt8) : d.Pair (d.scanner.erase 32 d.unsearched t) ↔
    d.Followed (fun n => n < d.strBegin.length - 1) (d.scanner.kept d.unsearched t).tail := by
  obtain ⟨h, gs, hkept⟩ := d.scanner.exists_kept d.unsearched t
  have hall := followed_kept (u := []) (Nat.zero_le _) hkept
  rw [List.nil_append] at hall
  rw [Scanner.erase, pair_intercalate, hkept, hall, List.tail_cons, Followed]
  refine or_iff_right ?_
  rintro ⟨p, m, hh, -, hend⟩
  exact not_begun_of_kept hkept hh hend

end

/-- No pair is left, and the answer is the number of the elements. The blanks
that are put in create no pair, since the delimiters have none. -/
def KillsPairs (strText : String32) (vecElements : List (List UInt8)) : Prop :=
  ∃ result count elements, KillElements strText.1 d.strBegin d.strEnd vecElements =
      some (result, count, elements) ∧ count = elements.length ∧ ¬d.Pair result

/-- A first delimiter that begins among the bytes that are not searched behind
an element, before the next element, has a second one behind it outside of the
elements. -/
def Skipped (t : List UInt8) : Prop :=
  d.Followed (fun n => n < d.strBegin.length - 1) (d.scanner.kept d.unsearched t).tail

theorem killsPairs_iff (strText : String32) (vecElements : List (List UInt8)) :
    ((∃ result count elements, KillElements strText.1 d.strBegin d.strEnd vecElements =
        some (result, count, elements) ∧ count = elements.length)) ∧
      (d.KillsPairs strText vecElements ↔ ¬d.Skipped strText.1) := by
  obtain ⟨elements, hkill⟩ := KillElements_eq (d := d) strText vecElements
  refine ⟨⟨_, _, _, hkill, rfl⟩, ?_⟩
  rw [Skipped, ← pair_erase_iff]
  constructor
  · rintro ⟨result, count, elements', hkill', -, hpair⟩
    cases hkill.symm.trans hkill'
    exact hpair
  · exact fun hpair => ⟨_, _, _, hkill, rfl, hpair⟩

theorem not_followed_zero (gs : List (List UInt8)) : ¬d.Followed (fun n => n < 0) gs := by
  induction gs with
  | nil => exact id
  | cons g gs ih =>
    rintro (⟨p, m, -, hp, -⟩ | h)
    · exact Nat.not_lt_zero _ hp
    · exact ih h

theorem not_skipped_of_length (h : d.strBegin.length = 1) (t : List UInt8) : ¬d.Skipped t := by
  rw [Skipped, h]
  exact d.not_followed_zero _

end Delimiters

/-- The corner brackets of GBK that `KillIntrInfo` passes. -/
def brackets : Delimiters where
  strBegin := [0xa1, 0xbe]
  strEnd := [0xa1, 0xbf]
  begin_ne_nil := by decide
  end_ne_nil := by decide
  ne := by decide
  blank_begin := by decide
  blank_end := by decide

/-- The second of two elements next to each other stays. -/
theorem not_killsPairs_brackets : ¬brackets.KillsPairs
    ⟨[0xa1, 0xbe, 97, 0xa1, 0xbf, 0xa1, 0xbe, 98, 0xa1, 0xbf], by decide⟩ [] := by
  rintro ⟨result, count, elements, hkill, -, hpair⟩
  have hresult : KillElements [0xa1, 0xbe, 97, 0xa1, 0xbf, 0xa1, 0xbe, 98, 0xa1, 0xbf]
      brackets.strBegin brackets.strEnd [] =
      some ([32, 0xa1, 0xbe, 98, 0xa1, 0xbf], 1, [[97]]) := by decide +kernel
  cases hkill.symm.trans hresult
  exact hpair ⟨[32], [98], [], rfl⟩

end TextMining.CMBTextTool
