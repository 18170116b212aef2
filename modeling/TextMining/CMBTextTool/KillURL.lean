import TextMining.Lib.Erasing
import TextMining.StringTool

/-!
# Removing links

`KillURL` puts a blank in place of a link and looks for the next one from the
position where the link ended before it was replaced. As many bytes behind the
link as it had itself, less one, are not searched.
-/

namespace TextMining.CMBTextTool

open StringTool Occurrence

def http : List UInt8 := text "http://"

theorem http_ne_nil : http ≠ [] := by decide

/-- The loop for the first byte that is not ASCII; `end` is kept when there is
none. -/
def firstWide (input : List UInt8) (start : Nat) : Nat :=
  match (input.drop start).findIdx? fun b => !(b ≤ 127) with
  | some k => start + k
  | none => npos32

/-- Where the link at `start` ends, `npos` at the end of the text. -/
def linkEnd (input : List UInt8) (start : Nat) : Nat :=
  let stop := u32 (find npos32 input 32 start)
  if stop = npos32 then firstWide input start else stop

def killURLLoop : Nat → List UInt8 → Nat → Nat → Option (List UInt8 × Nat)
  | 0, _, _, _ => none
  | fuel + 1, input, start, urlnum =>
    if start = npos32 then some (input, urlnum)
    else
      let stop := linkEnd input start
      let input := replace input start (u32 (stop + 2 ^ 32 - start)) [32]
      killURLLoop fuel input (u32 (findStr npos32 input http stop)) (urlnum + 1)

def KillURL (input : List UInt8) : Option (List UInt8 × Nat) :=
  killURLLoop (input.length + 1) input (u32 (findStr npos32 input http 0)) 0

-- ---------------------------------------------------------------------------
-- Links
-- ---------------------------------------------------------------------------

/-- The length of what belongs to a link of the text behind its beginning: up
to the next blank or, when there is none, to the next byte that is not ASCII. -/
def linkLength (t : List UInt8) : Nat :=
  match t.findIdx? (· == 32) with
  | some k => k
  | none => (t.findIdx? fun b => !(b ≤ 127)).getD t.length

/-- A link begins with `http://` and has no blank. -/
def Link (l : List UInt8) : Prop := http <+: l ∧ 32 ∉ l

section
variable {input t a b : List UInt8} {start : Nat}

theorem findIdx?_http {p : UInt8 → Bool} (h : http.findIdx? p = none) (b : List UInt8) :
    (http ++ b).findIdx? p = (b.findIdx? p).map (· + 7) := by
  rw [List.findIdx?_append, h, Option.none_or]
  rfl

theorem linkLength_http (b : List UInt8) : linkLength (http ++ b) = linkLength b + 7 := by
  rw [linkLength, linkLength, findIdx?_http rfl, findIdx?_http rfl]
  cases b.findIdx? (· == 32) with
  | some k => rfl
  | none =>
    cases b.findIdx? fun b => !(b ≤ 127) with
    | some k => rfl
    | none =>
      simp only [Option.map_none, Option.getD_none, List.length_append]
      exact Nat.add_comm 7 b.length

theorem linkLength_le (t : List UInt8) : linkLength t ≤ t.length := by
  rw [linkLength]
  split
  · rename_i k hk
    exact (List.findIdx?_eq_some_iff_getElem.mp hk).1.le
  · cases hk : t.findIdx? fun b => !(b ≤ 127) with
    | some k => exact (List.findIdx?_eq_some_iff_getElem.mp hk).1.le
    | none => exact le_rfl

theorem blank_not_mem_link (t : List UInt8) : 32 ∉ t.take (linkLength t) := by
  rw [linkLength]
  split
  · rename_i k hk
    obtain ⟨hlt, -, hbefore⟩ := List.findIdx?_eq_some_iff_getElem.mp hk
    intro hm
    obtain ⟨i, hi, he⟩ := List.mem_iff_getElem.mp hm
    rw [List.length_take] at hi
    rw [List.getElem_take] at he
    exact hbefore i (by omega) (by simp [he])
  · rename_i hk
    intro hm
    have hno := List.findIdx?_eq_none_iff.mp hk 32 (List.mem_of_mem_take hm)
    exact absurd hno (by decide)

theorem link_http (b : List UInt8) : Link (http ++ b.take (linkLength b)) := by
  refine ⟨List.prefix_append _ _, ?_⟩
  rw [List.mem_append, not_or]
  exact ⟨by decide, blank_not_mem_link b⟩

def linkScanner : Scanner UInt8 where
  next t := (cut http t).map fun p =>
    (p.1, http ++ p.2.take (linkLength p.2), p.2.drop (linkLength p.2))
  split h := by
    obtain ⟨⟨a, b⟩, hcut, he⟩ := Option.map_eq_some_iff.mp h
    cases he
    rw [(cut_eq_some hcut).1]
    simp
  nonempty h := by
    obtain ⟨⟨a, b⟩, -, he⟩ := Option.map_eq_some_iff.mp h
    cases he
    exact List.cons_ne_nil _ _

/-- The bytes behind a link that are not searched. -/
def unsearched (l : List UInt8) : Nat := l.length - 1

-- ---------------------------------------------------------------------------
-- The loop
-- ---------------------------------------------------------------------------

theorem linkEnd_cases (hsize : input.length < npos32) (hdrop : input.drop start = t) :
    linkEnd input start = start + linkLength t ∧ start + linkLength t < npos32 ∨
      linkEnd input start = npos32 ∧ linkLength t = t.length := by
  have hnpos : npos32 = 2 ^ 32 - 1 := rfl
  have hlen := congrArg List.length hdrop
  rw [List.length_drop] at hlen
  rw [linkEnd, find, firstWide, hdrop, linkLength]
  cases hblank : t.findIdx? (· == 32) with
  | some k =>
    have hk := (List.findIdx?_eq_some_iff_getElem.mp hblank).1
    have hpos : u32 (start + k) = start + k := by
      simp only [u32]
      omega
    simp only [hpos]
    rw [if_neg (by omega)]
    exact .inl ⟨rfl, by omega⟩
  | none =>
    have hpos : u32 npos32 = npos32 := by
      simp only [u32]
      rfl
    simp only [hpos, if_true]
    cases hwide : t.findIdx? fun b => !(b ≤ 127) with
    | some k =>
      have hk := (List.findIdx?_eq_some_iff_getElem.mp hwide).1
      exact .inl ⟨rfl, by simp only [Option.getD_some]; omega⟩
    | none => exact .inr ⟨rfl, rfl⟩

theorem replace_link (hsize : input.length < npos32) (hdrop : input.drop start = http ++ b) :
    let stop := linkEnd input start
    let next := replace input start (u32 (stop + 2 ^ 32 - start)) [32]
    let r := b.drop (linkLength b)
    next.length < input.length ∧
      next.take stop = input.take start ++ 32 :: r.take (linkLength b + 6) ∧
      next.drop stop = r.drop (linkLength b + 6) := by
  intro stop next r
  have hnpos : npos32 = 2 ^ 32 - 1 := rfl
  have hlen := congrArg List.length hdrop
  have hhttp : http.length = 7 := rfl
  rw [List.length_drop, List.length_append, hhttp] at hlen
  have hle := linkLength_le b
  have hstart : (input.take start).length = start := by
    rw [List.length_take]
    omega
  have hrest : input.drop (start + (linkLength b + 7)) = r := by
    rw [← List.drop_drop, hdrop, Nat.add_comm (linkLength b), ← hhttp, List.drop_append,
      List.drop_of_length_le (by omega), Nat.add_sub_cancel_left]
    rfl
  have hcases := linkEnd_cases hsize hdrop
  rw [linkLength_http, List.length_append, hhttp] at hcases
  have hnext : next = input.take start ++ 32 :: r := by
    have hgo : input.drop (start + u32 (stop + 2 ^ 32 - start)) = r := by
      rcases hcases with ⟨hstop, hlt⟩ | ⟨hstop, hall⟩
      · have hn : u32 (stop + 2 ^ 32 - start) = linkLength b + 7 := by
          simp only [stop, hstop, u32]
          omega
        rw [hn, hrest]
      · have hn : u32 (stop + 2 ^ 32 - start) = npos32 - start := by
          simp only [stop, hstop, u32]
          omega
        have hnil : r = [] := List.drop_of_length_le (by omega)
        rw [hn, hnil, List.drop_of_length_le (by omega)]
    show replace input start (u32 (stop + 2 ^ 32 - start)) [32] = _
    rw [replace, hgo, List.append_assoc]
    rfl
  have hr : r.length = b.length - linkLength b := List.length_drop
  refine ⟨?_, ?_, ?_⟩
  · rw [hnext, List.length_append, List.length_cons, hstart]
    omega
  · rcases hcases with ⟨hstop, -⟩ | ⟨hstop, hall⟩
    · rw [hnext, show stop = start + (linkLength b + 6 + 1) from hstop,
        List.take_append, hstart, Nat.add_sub_cancel_left, List.take_succ_cons,
        List.take_of_length_le (by omega)]
    · rw [hnext, List.take_of_length_le, List.take_of_length_le (l := r) (by omega)]
      rw [List.length_append, List.length_cons, hstart]
      simp only [stop, hstop]
      omega
  · rcases hcases with ⟨hstop, -⟩ | ⟨hstop, hall⟩
    · rw [hnext, show stop = start + (linkLength b + 6 + 1) from hstop,
        List.drop_append, hstart, Nat.add_sub_cancel_left, List.drop_succ_cons,
        List.drop_of_length_le (by omega), List.nil_append]
    · rw [List.drop_of_length_le (l := r) (by omega), hnext, List.drop_of_length_le]
      rw [List.length_append, List.length_cons, hstart]
      simp only [stop, hstop]
      omega

/-- The loop erases the links that the scanner finds in what is not settled
yet. -/
theorem killURLLoop_eq {fuel stop n : Nat} (hsize : input.length < npos32)
    (hfuel : input.length < fuel) :
    killURLLoop fuel input (u32 (findStr npos32 input http stop)) n =
      some (input.take stop ++ linkScanner.erase 32 unsearched (input.drop stop),
        n + ((linkScanner.kept unsearched (input.drop stop)).length - 1)) := by
  induction fuel generalizing input stop n with
  | zero => exact absurd hfuel (Nat.not_lt_zero _)
  | succ fuel ih =>
    rw [killURLLoop]
    cases hcut : cut http (input.drop stop) with
    | none =>
      have hnext : linkScanner.next (input.drop stop) = none := by
        simp only [linkScanner, hcut, Option.map_none]
      rw [if_pos (u32_findStr_none http_ne_nil hcut), Scanner.erase_of_none hnext,
        Scanner.kept_of_none hnext, List.take_append_drop]
      rfl
    | some p =>
      obtain ⟨a, b⟩ := p
      have hnext : linkScanner.next (input.drop stop) =
          some (a, http ++ b.take (linkLength b), b.drop (linkLength b)) := by
        simp only [linkScanner, hcut, Option.map_some]
      have hskip : unsearched (http ++ b.take (linkLength b)) = linkLength b + 6 := by
        have hle := linkLength_le b
        have hhttp : http.length = 7 := rfl
        rw [unsearched, List.length_append, List.length_take, hhttp]
        omega
      obtain ⟨hstart, hlt⟩ := u32_findStr hsize http_ne_nil hcut
      have hsplit := (cut_eq_some hcut).1
      have hdrop : input.drop (stop + a.length) = http ++ b := by
        rw [← List.drop_drop, hsplit, List.append_assoc, List.drop_left]
      have hbefore : input.take (stop + a.length) = input.take stop ++ a := by
        rw [List.take_add, hsplit, List.append_assoc, List.take_left]
      obtain ⟨hshort, htake, hrest⟩ := replace_link hsize hdrop
      obtain ⟨g, gs, hkept⟩ := linkScanner.exists_kept unsearched
        ((b.drop (linkLength b)).drop (linkLength b + 6))
      rw [hstart, if_neg hlt.ne]
      simp only
      rw [ih (hshort.trans hsize) (by omega), htake, hrest, hbefore, Scanner.erase_of_some hnext,
        Scanner.kept_of_some hnext, hskip, hkept]
      simp only [List.modifyHead_cons, List.length_cons, List.append_assoc, List.cons_append,
        Nat.add_sub_cancel, Option.some.injEq, Prod.mk.injEq, true_and]
      omega

theorem KillURL_eq (input : String32) : KillURL input.1 =
    some (linkScanner.erase 32 unsearched input.1,
      (linkScanner.kept unsearched input.1).length - 1) := by
  rw [KillURL, killURLLoop_eq input.2 (Nat.lt_succ_self _), List.take_zero, List.drop_zero,
    List.nil_append, Nat.zero_add]

end

-- ---------------------------------------------------------------------------
-- The links that stay
-- ---------------------------------------------------------------------------

/-- Behind every link that is followed by another there are at least as many
bytes before the next as are not searched. -/
def Spaced (t : List UInt8) : Prop :=
  match _h : linkScanner.next t with
  | none => True
  | some (_, l, r) =>
    (∀ c d, cut http r = some (c, d) → unsearched l ≤ c.length) ∧ Spaced r
termination_by t.length
decreasing_by
  have hlt := Scanner.length_lt _h 0
  rwa [List.drop_zero] at hlt

section
variable {t a l r u c d : List UInt8}

theorem spaced_of_none (h : linkScanner.next t = none) : Spaced t := by
  rw [Spaced]
  split
  · trivial
  · rename_i h'
    cases h.symm.trans h'

theorem spaced_of_some (h : linkScanner.next t = some (a, l, r)) :
    Spaced t ↔ (∀ c d, cut http r = some (c, d) → unsearched l ≤ c.length) ∧ Spaced r := by
  rw [Spaced]
  split
  · rename_i h'
    cases h.symm.trans h'
  · rename_i h'
    cases h.symm.trans h'
    rfl

theorem next_of_cut (h : cut http t = some (a, r)) : linkScanner.next t =
    some (a, http ++ r.take (linkLength r), r.drop (linkLength r)) := by
  simp only [linkScanner, h, Option.map_some]

theorem next_of_cut_none (h : cut http t = none) : linkScanner.next t = none := by
  simp only [linkScanner, h, Option.map_none]

theorem erase_append (hu : 104 ∉ u) (d : List UInt8) :
    linkScanner.erase 32 unsearched (u ++ d) = u ++ linkScanner.erase 32 unsearched d := by
  induction u with
  | nil => rfl
  | cons x u ih =>
    rw [List.mem_cons, not_or] at hu
    have hcut : cut http (x :: (u ++ d)) = (cut http (u ++ d)).map fun r => (x :: r.1, r.2) :=
      cut_cons_of_ne (Ne.symm hu.1)
    rw [List.cons_append, List.cons_append, ← ih hu.2]
    cases hrest : cut http (u ++ d) with
    | none =>
      rw [hrest] at hcut
      rw [Scanner.erase_of_none (next_of_cut_none hcut),
        Scanner.erase_of_none (next_of_cut_none hrest)]
    | some p =>
      rw [hrest] at hcut
      rw [Scanner.erase_of_some (next_of_cut hcut), Scanner.erase_of_some (next_of_cut hrest),
        List.cons_append]

theorem take_append_erase {k : Nat} (h : cut http r = some (c, d)) (hk : k ≤ c.length) :
    r.take k ++ linkScanner.erase 32 unsearched (r.drop k) =
      linkScanner.erase 32 unsearched r := by
  obtain ⟨hr, hfirst⟩ := cut_eq_some h
  have hdrop : r.drop k = c.drop k ++ http ++ d := by
    rw [hr, List.append_assoc, List.drop_append_of_le_length hk, List.append_assoc]
  have hcut : cut http (r.drop k) = some (c.drop k, d) := by
    refine cut_eq_some_iff.mpr ⟨hdrop, fun j hj hp => ?_⟩
    rw [List.length_drop] at hj
    rw [List.drop_drop] at hp
    exact hfirst (k + j) (by omega) hp
  have htake : r.take k = c.take k := by
    rw [hr, List.append_assoc, List.take_append_of_le_length hk]
  rw [Scanner.erase_of_some (next_of_cut hcut), Scanner.erase_of_some (next_of_cut h), htake,
    ← List.append_assoc, List.take_append_drop]

theorem http_infix_of_lt {k : Nat} (h : cut http r = some (c, d)) (hk : c.length < k) :
    http <:+: r.take k ++ linkScanner.erase 32 unsearched (r.drop k) := by
  obtain ⟨rfl, -⟩ := cut_eq_some h
  obtain ⟨j, rfl⟩ := Nat.exists_eq_add_of_lt hk
  have htake : (c ++ http ++ d).take (c.length + j + 1) = c ++ (http ++ d).take (j + 1) := by
    rw [List.append_assoc, Nat.add_assoc, List.take_length_add_append]
  have hdrop : (c ++ http ++ d).drop (c.length + j + 1) = (http ++ d).drop (j + 1) := by
    rw [List.append_assoc, Nat.add_assoc, List.drop_length_add_append]
  rw [htake, hdrop]
  rcases Nat.lt_or_ge (j + 1) http.length with hlt | hge
  · -- the rest of `http://` has no `h`, so nothing is found before it ends
    have hrest : 104 ∉ http.drop (j + 1) := fun hm =>
      absurd (List.mem_of_mem_drop (List.drop_drop (i := j) (j := 1) ▸ hm :
        (104 : UInt8) ∈ (http.drop 1).drop j)) (by decide)
    rw [List.take_append_of_le_length hlt.le, List.drop_append_of_le_length hlt.le,
      erase_append hrest, List.append_assoc, ← List.append_assoc (http.take (j + 1)),
      List.take_append_drop]
    exact ⟨c, _, by rw [List.append_assoc]⟩
  · rw [List.take_append, List.take_of_length_le hge, List.append_assoc, List.append_assoc]
    exact ⟨c, _, by rw [List.append_assoc]⟩

theorem not_http_infix_erase_iff (t : List UInt8) :
    ¬ http <:+: linkScanner.erase 32 unsearched t ↔ Spaced t := by
  induction hn : t.length using Nat.strong_induction_on generalizing t with
  | _ n ih =>
    cases hcut : cut http t with
    | none =>
      have hnext := next_of_cut_none hcut
      rw [Scanner.erase_of_none hnext]
      exact iff_of_true (cut_eq_none.mp hcut) (spaced_of_none hnext)
    | some p =>
      obtain ⟨a, b⟩ := p
      have hnext := next_of_cut hcut
      have hlt := Scanner.length_lt hnext 0
      rw [List.drop_zero] at hlt
      have ha := not_infix_of_cut hcut http_ne_nil
      have hblank : (32 : UInt8) ∉ http := by decide
      rw [Scanner.erase_of_some hnext, infix_append_cons hblank, or_iff_right ha,
        spaced_of_some hnext]
      cases hr : cut http (b.drop (linkLength b)) with
      | none =>
        have hdrop := cut_eq_none.mpr fun h =>
          cut_eq_none.mp hr (h.trans (List.drop_suffix (unsearched
            (http ++ b.take (linkLength b))) _).isInfix)
        rw [Scanner.erase_of_none (next_of_cut_none hdrop), List.take_append_drop]
        refine iff_of_true (cut_eq_none.mp hr) ⟨?_, spaced_of_none (next_of_cut_none hr)⟩
        intro c d h
        cases h
      | some q =>
        obtain ⟨c, d⟩ := q
        have hgap : (∀ c' d', some (c, d) = some (c', d') →
            unsearched (http ++ b.take (linkLength b)) ≤ c'.length) ↔
            unsearched (http ++ b.take (linkLength b)) ≤ c.length := by
          simp
        rw [hgap]
        rcases Nat.lt_or_ge c.length (unsearched (http ++ b.take (linkLength b))) with hk | hk
        · exact iff_of_false (not_not.mpr (http_infix_of_lt hr hk)) fun h =>
            absurd h.1 (Nat.not_le.mpr hk)
        · rw [take_append_erase hr hk, and_iff_right hk]
          exact ih _ (hn ▸ hlt) _ rfl

end

/-- Outside of the links, each of which becomes a blank, nothing changes. -/
theorem KillURL_blanked (input : String32) :
    ∃ result n, KillURL input.1 = some (result, n) ∧ Blanked Link 32 input.1 result n := by
  refine ⟨_, _, KillURL_eq input, Scanner.erase_blanked (fun t a l r h => ?_) input.1⟩
  obtain ⟨p, -, he⟩ := Option.map_eq_some_iff.mp h
  cases he
  exact link_http p.2

def KillsLinks (input : String32) : Prop :=
  ∃ result n, KillURL input.1 = some (result, n) ∧ ¬ http <:+: result ∧
    Blanked Link 32 input.1 result n

/-- A link is left just when it begins too close behind another. -/
theorem killsLinks_iff (input : String32) : KillsLinks input ↔ Spaced input.1 := by
  rw [← not_http_infix_erase_iff]
  constructor
  · rintro ⟨result, n, hkill, hclean, -⟩
    cases hkill.symm.trans (KillURL_eq input)
    exact hclean
  · intro hclean
    obtain ⟨result, n, hkill, hblanked⟩ := KillURL_blanked input
    cases hkill.symm.trans (KillURL_eq input)
    exact ⟨_, _, hkill, hclean, hblanked⟩

/-- The second of two links is too close. -/
theorem not_killsLinks_two : ¬KillsLinks ⟨text "http://a.cn http://b.cn", by decide⟩ := by
  rintro ⟨result, n, hkill, hclean, -⟩
  have hresult : KillURL (text "http://a.cn http://b.cn") = some (text "  http://b.cn", 1) := by
    decide +kernel
  cases hkill.symm.trans hresult
  exact hclean ⟨text "  ", text "b.cn", by decide⟩

end TextMining.CMBTextTool
