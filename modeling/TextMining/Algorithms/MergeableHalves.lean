import TextMining.Algorithms.MergeSort

/-!
# The arrays that merge sort sorts

The defect of `Merge` is harmless where what is left of a run is one element, or
several equal ones of the right half. A good array is one all of whose ranges
have such halves.
-/

namespace TextMining.MergeSort

-- ---------------------------------------------------------------------------
-- The arrays that are sorted
-- ---------------------------------------------------------------------------

/-- The halves whose merge leaves nothing to the two last loops but one value: the
right half has nothing but its maximum from the maximum of the left one on, or a
single element of the left half is above the right one. -/
def Mergeable (left right : List Int) : Prop :=
  ∀ l m, left.max? = some l → right.max? = some m →
    (l ≤ m → ∀ x ∈ right, x < l ∨ x = m) ∧ (m < l → left.countP (fun x => m < x) = 1)

/-- An array all of whose ranges have mergeable halves. -/
inductive Good : List Int → Prop
  | small {seg : List Int} (h : seg.length ≤ 1) : Good seg
  | halves {seg : List Int} (h : 2 ≤ seg.length) (left : Good (seg.take (seg.length / 2)))
    (right : Good (seg.drop (seg.length / 2)))
    (merge : Mergeable (seg.take (seg.length / 2)) (seg.drop (seg.length / 2))) : Good seg

section
variable {seg as bs out ra rb left right : List Int} {last : Int}

theorem max?_perm (h : left.Perm right) : left.max? = right.max? := by
  ext m
  simp only [List.max?_eq_some_iff, h.mem_iff]

theorem Mergeable.perm {left' right' : List Int} (h : Mergeable left right) (hl : left.Perm left')
    (hr : right.Perm right') : Mergeable left' right' := by
  intro l m hlm hrm
  obtain ⟨hle, hlt⟩ := h l m ((max?_perm hl).trans hlm) ((max?_perm hr).trans hrm)
  refine ⟨fun h x hx => hle h x (hr.mem_iff.mpr hx), fun h => ?_⟩
  rw [← hl.countP_eq]
  exact hlt h

theorem exists_max (h : left ≠ []) : ∃ m, left.max? = some m := by
  cases left with
  | nil => exact absurd rfl h
  | cons x xs => exact ⟨_, List.max?_cons'⟩

theorem leftBehind_of_left_nil (h : Merging as bs out ra rb) (hra : ra = []) :
    leftBehind out (as ++ bs) last = out ++ last :: rb.tail := by
  obtain ⟨taken, rfl⟩ := h.right_suffix
  have hlen := h.perm.length_eq
  simp only [hra, List.length_append, List.length_nil] at hlen
  have hout : out.length = (as ++ taken).length := by
    rw [List.length_append]
    omega
  rw [leftBehind, ← List.append_assoc, hout, ← List.drop_drop, List.drop_left, List.drop_one]

theorem leftBehind_of_single {x : Int} (h : Merging as bs out ra rb) (hx : ra ++ rb = [x])
    (hlast : (ra ++ rb).getLast? = some last) :
    leftBehind out (as ++ bs) last = out ++ (ra ++ rb) := by
  have hlen := h.perm.length_eq
  rw [hx, List.length_append, List.length_singleton] at hlen
  rw [hx] at hlast
  rw [leftBehind, hx, List.drop_of_length_le (by omega)]
  cases hlast
  rfl

theorem leftBehind_of_mergeable (h : Merging as bs out ra rb) (has : as.Pairwise (· ≤ ·))
    (hbs : bs.Pairwise (· ≤ ·)) (hne : as ≠ []) (hne' : bs ≠ [])
    (hlast : (ra ++ rb).getLast? = some last) (hm : Mergeable as bs) :
    leftBehind out (as ++ bs) last = out ++ (ra ++ rb) := by
  obtain ⟨l, hl⟩ := exists_max hne
  obtain ⟨m, hmax⟩ := exists_max hne'
  obtain ⟨hle, hlt⟩ := hm l m hl hmax
  obtain ⟨hlmem, hlge⟩ := List.max?_eq_some_iff.mp hl
  obtain ⟨hmmem, hmge⟩ := List.max?_eq_some_iff.mp hmax
  have hsorted := h.sorted has hbs
  rcases h.rest_nil with hra | hrb
  · -- all that is left of the right half is its maximum
    rw [leftBehind_of_left_nil h hra]
    subst hra
    rw [List.nil_append] at hlast hsorted ⊢
    cases rb with
    | nil => cases hlast
    | cons x rest =>
      obtain ⟨-, hrest, hcross⟩ := List.pairwise_append.mp hsorted
      have hxmem : x ∈ bs := h.right_suffix.subset List.mem_cons_self
      have hlastmem : last ∈ x :: rest := List.mem_of_getLast? hlast
      have hlx : l ≤ x := by
        have hout : l ∈ out := by
          have hsub := h.left_sublist.subset hlmem
          rwa [List.append_nil] at hsub
        exact hcross l hout x List.mem_cons_self
      have hxm : x = m := by
        rcases hle (hlx.trans (hmge x hxmem)) x hxmem with hxl | hxm
        · exact absurd hxl (not_lt.mpr hlx)
        · exact hxm
      have hlastx : last = x := by
        refine le_antisymm ?_ ?_
        · rw [hxm]
          exact hmge last (h.right_suffix.subset hlastmem)
        · rcases List.mem_cons.mp hlastmem with rfl | hmem
          · exact le_refl _
          · exact List.rel_of_pairwise_cons hrest hmem
      rw [hlastx, List.tail_cons]
  · -- one element is left of the left half
    have hra : ra ≠ [] := by
      have hrest := h.rest_ne_nil (.inl hne)
      rwa [hrb, List.append_nil] at hrest
    have habove : ∀ a ∈ ra, m < a := h.lt_left has hrb m hmmem
    obtain ⟨a, rest, hcons⟩ := List.exists_cons_of_ne_nil hra
    have hml : m < l := by
      have hmem : a ∈ ra := hcons ▸ List.mem_cons_self
      exact (habove a hmem).trans_le (hlge a (h.left_suffix.subset hmem))
    have hone : ra.length ≤ 1 := by
      rw [← hlt hml]
      have hcount : ra.countP (fun x => m < x) = ra.length :=
        List.countP_eq_length.mpr fun a ha => decide_eq_true (habove a ha)
      rw [← hcount]
      exact h.left_suffix.sublist.countP_le
    obtain ⟨x, hx⟩ : ∃ x, ra = [x] := by
      have hpos := List.length_pos_of_ne_nil hra
      exact List.length_eq_one_iff.mp (by omega)
    exact leftBehind_of_single h (by rw [hrb, hx]; rfl) hlast

theorem pairwise_of_length_le_one (h : seg.length ≤ 1) : seg.Pairwise (· ≤ ·) := by
  match seg, h with
  | [], _ => exact .nil
  | [x], _ => exact List.pairwise_singleton _ x

theorem half_ne_nil (h : 2 ≤ seg.length) :
    seg.take (seg.length / 2) ≠ [] ∧ seg.drop (seg.length / 2) ≠ [] := by
  constructor <;> refine List.ne_nil_of_length_pos ?_
  · rw [List.length_take]
    omega
  · rw [List.length_drop]
    omega

theorem Outcome.sorts (h : Outcome seg out) (hgood : Good seg) :
    out.Perm seg ∧ out.Pairwise (· ≤ ·) := by
  induction h with
  | small h => exact ⟨.refl _, pairwise_of_length_le_one h⟩
  | @merged seg as bs out ra rb last h _ _ loop hlast ihl ihr =>
    cases hgood with
    | small hone => omega
    | halves _ gl gr hm =>
      obtain ⟨hpl, hsl⟩ := ihl gl
      obtain ⟨hpr, hsr⟩ := ihr gr
      obtain ⟨hnl, hnr⟩ := half_ne_nil h
      have hne : as ≠ [] := fun he => hnl (he ▸ hpl).nil_eq.symm
      have hne' : bs ≠ [] := fun he => hnr (he ▸ hpr).nil_eq.symm
      rw [leftBehind_of_mergeable loop hsl hsr hne hne' hlast (hm.perm hpl.symm hpr.symm)]
      refine ⟨loop.perm.trans ?_, loop.sorted hsl hsr⟩
      have happ := hpl.append hpr
      rwa [List.take_append_drop] at happ

theorem Outcome.subset (h : Outcome seg out) : ∀ x ∈ out, x ∈ seg := by
  induction h with
  | small _ => exact fun x hx => hx
  | @merged seg as bs out ra rb last h _ _ loop hlast ihl ihr =>
    have hboth : ∀ x ∈ as ++ bs, x ∈ seg := fun x hx => by
      rcases List.mem_append.mp hx with hx | hx
      · exact List.mem_of_mem_take (ihl x hx)
      · exact List.mem_of_mem_drop (ihr x hx)
    intro x hx
    rw [leftBehind, List.mem_append, List.mem_cons] at hx
    rcases hx with hx | rfl | hx
    · exact hboth x (loop.perm.mem_iff.mp (List.mem_append_left _ hx))
    · exact hboth _ (loop.perm.mem_iff.mp (List.mem_append_right _ (List.mem_of_getLast? hlast)))
    · exact hboth x (List.mem_of_mem_drop hx)

theorem single_of_nodup (h : Merging as bs out ra rb) (hne : as ≠ []) (hne' : bs ≠ [])
    (hlast : (ra ++ rb).getLast? = some last) (hnd : (leftBehind out (as ++ bs) last).Nodup) :
    ∃ x, ra ++ rb = [x] := by
  rcases h.rest_nil with hra | hrb
  · rw [leftBehind_of_left_nil h hra] at hnd
    rw [hra, List.nil_append] at hlast ⊢
    match rb, hlast with
    | [x], _ => exact ⟨x, rfl⟩
    | x :: y :: rest, hlast =>
      rw [List.getLast?_cons_cons] at hlast
      have hmem : last ∈ y :: rest := List.mem_of_getLast? hlast
      exact absurd hmem (List.nodup_cons.mp (List.nodup_append.mp hnd).2.1).1
  · have hra := h.rest_ne_nil (.inl hne)
    rw [hrb, List.append_nil] at hra ⊢
    have hlen := h.perm.length_eq
    have hsuffix := h.left_suffix.length_le
    have hposb := List.length_pos_of_ne_nil hne'
    have hposr := List.length_pos_of_ne_nil hra
    simp only [hrb, List.length_append, List.length_nil] at hlen
    refine List.length_eq_one_iff.mp ?_
    by_contra hone
    -- the last element of the right half was put out and is in the last cell again
    have hlastb : bs.getLast hne' ∈ out := by
      have hsub := h.right_sublist.subset (List.getLast_mem hne')
      rwa [hrb, List.append_nil] at hsub
    have hlastc : bs.getLast hne' ∈ (as ++ bs).drop (out.length + 1) := by
      have hcell : (as ++ bs).drop (out.length + 1) ≠ [] := by
        refine List.ne_nil_of_length_pos ?_
        rw [List.length_drop, List.length_append]
        omega
      have hget : ((as ++ bs).drop (out.length + 1)).getLast hcell = bs.getLast hne' := by
        rw [List.getLast_drop, List.getLast_append_of_ne_nil]
      exact hget ▸ List.getLast_mem hcell
    rw [leftBehind, List.nodup_append] at hnd
    exact hnd.2.2 _ hlastb _ (List.mem_cons_of_mem _ hlastc) rfl

theorem mergeable_of_single (h : Merging as bs out ra rb) (has : as.Pairwise (· ≤ ·)) {x : Int}
    (hx : ra ++ rb = [x]) : Mergeable as bs := by
  intro l m hl hmax
  obtain ⟨hlmem, hlge⟩ := List.max?_eq_some_iff.mp hl
  obtain ⟨hmmem, hmge⟩ := List.max?_eq_some_iff.mp hmax
  rcases h.rest_nil with hra | hrb
  · obtain ⟨taken, htaken, hlt⟩ := h.exists_lt
    obtain ⟨taken', htaken', hle⟩ := h.exists_le
    rw [hra, List.nil_append] at hx
    rw [hra, List.append_nil] at htaken'
    rw [hx] at htaken
    have hbelow : ∀ b ∈ taken, b < l := fun b hb => by
      obtain ⟨a, ha, hba⟩ := hlt b hb
      exact hba.trans_le (hlge a ha)
    have hlm : l ≤ m := by
      obtain ⟨b, hb, hlb⟩ := hle l (htaken' ▸ hlmem)
      exact hlb.trans (hmge b hb)
    refine ⟨fun _ y hy => ?_, fun h => absurd hlm (not_le.mpr h)⟩
    rw [htaken] at hy hmmem
    rcases List.mem_append.mp hy with hy | hy
    · exact .inl (hbelow y hy)
    · rcases List.mem_append.mp hmmem with hm | hm
      · exact absurd hlm (not_le.mpr (hbelow m hm))
      · rw [List.mem_singleton.mp hy, List.mem_singleton.mp hm]
        exact .inr rfl
  · obtain ⟨taken, htaken, hle⟩ := h.exists_le
    rw [hrb, List.append_nil] at hx
    have hmx : m < x := h.lt_left has hrb m hmmem x (hx ▸ List.mem_singleton_self x)
    have hxl : x ≤ l := hlge x (h.left_suffix.subset (hx ▸ List.mem_singleton_self x))
    refine ⟨fun h => absurd (hmx.trans_le hxl) (not_lt.mpr h), fun _ => ?_⟩
    have hnone : taken.countP (fun a => m < a) = 0 := by
      refine List.countP_eq_zero.mpr fun a ha => ?_
      obtain ⟨b, hb, hab⟩ := hle a ha
      rw [decide_eq_true_eq, not_lt]
      exact hab.trans (hmge b hb)
    rw [htaken, List.countP_append, hnone, hx, Nat.zero_add, List.countP_singleton,
      if_pos (decide_eq_true hmx)]

theorem perm_of_subset (hnd : as.Nodup) (hsub : ∀ x ∈ as, x ∈ seg) (hlen : as.length = seg.length) :
    as.Perm seg :=
  (List.subperm_of_subset hnd hsub).perm_of_length_le hlen.ge

theorem Outcome.good (h : Outcome seg out) (hnd : seg.Nodup) (hperm : out.Perm seg)
    (hsorted : out.Pairwise (· ≤ ·)) : Good seg := by
  induction h with
  | small h => exact .small h
  | @merged seg as bs out ra rb last h hleft hright loop hlast ihl ihr =>
    obtain ⟨hnl, hnr⟩ := half_ne_nil h
    have hne : as ≠ [] := List.ne_nil_of_length_pos
      (hleft.length_eq ▸ List.length_pos_of_ne_nil hnl)
    have hne' : bs ≠ [] := List.ne_nil_of_length_pos
      (hright.length_eq ▸ List.length_pos_of_ne_nil hnr)
    obtain ⟨x, hx⟩ := single_of_nodup loop hne hne' hlast (hperm.nodup_iff.mpr hnd)
    rw [leftBehind_of_single loop hx hlast] at hperm hsorted
    have hall : (as ++ bs).Nodup := loop.perm.nodup_iff.mp (hperm.nodup_iff.mpr hnd)
    obtain ⟨hnda, hndb, -⟩ := List.nodup_append.mp hall
    have hpl := perm_of_subset hnda hleft.subset hleft.length_eq
    have hpr := perm_of_subset hndb hright.subset hright.length_eq
    have hsl : as.Pairwise (· ≤ ·) := by
      refine hsorted.sublist (loop.left_sublist.trans ?_)
      rw [← List.append_assoc]
      exact List.sublist_append_left _ _
    have hsr : bs.Pairwise (· ≤ ·) := by
      refine hsorted.sublist (loop.right_sublist.trans ?_)
      exact (List.sublist_append_right _ _).append_left _
    exact .halves h (ihl (hnd.sublist (List.take_sublist _ _)) hpl hsl)
      (ihr (hnd.sublist (List.drop_sublist _ _)) hpr hsr)
      ((mergeable_of_single loop hsl hx).perm hpl hpr)

end

-- ---------------------------------------------------------------------------
-- `MergeSort`
-- ---------------------------------------------------------------------------

def Sorts (xs buf : List Int) : Prop :=
  ∃ m, mergeSort xs xs.length buf = some m ∧ m.sortList.Perm xs ∧ m.sortList.Pairwise (· ≤ ·)

section
variable {xs buf : List Int}

/-- Up to `2 ^ 30` elements, every run ends and no assertion fails. -/
theorem mergeSort_outcome (hpos : 0 < xs.length) (hbuf : xs.length ≤ buf.length)
    (hsmall : xs.length ≤ 2 ^ 30) :
    ∃ m, mergeSort xs xs.length buf = some m ∧ Outcome xs m.sortList := by
  obtain ⟨out, hout, hrun⟩ := subMergeSort_spec xs.length xs [] [] [] (buf.take xs.length)
    (buf.drop xs.length) (le_refl _) hpos rfl (List.length_take_of_le hbuf) (by simpa using hsmall)
  simp only [List.nil_append, List.append_nil, List.take_append_drop, List.length_nil,
    Nat.zero_add] at hrun
  exact ⟨_, (if_pos hpos).trans hrun, hout⟩

theorem mergeSort_overflow (hbig : 2 ^ 30 < xs.length) : mergeSort xs xs.length buf = none := by
  rw [mergeSort]
  split
  · exact subMergeSort_overflow (by omega) (by omega)
  · rfl

/-- A good array, whose bounds can be added, is sorted whatever the buffer holds;
an array of distinct elements is sorted in no other case. -/
theorem mergeSort_sorts_iff (xs buf : List Int) (hpos : 0 < xs.length)
    (hbuf : xs.length ≤ buf.length) :
    (xs.length ≤ 2 ^ 30 → Good xs → Sorts xs buf) ∧ (Sorts xs buf → xs.length ≤ 2 ^ 30) ∧
      (xs.Nodup → Sorts xs buf → Good xs) := by
  have hfit : Sorts xs buf → xs.length ≤ 2 ^ 30 := by
    rintro ⟨m, hrun, -⟩
    by_contra hbig
    rw [mergeSort_overflow (not_le.mp hbig)] at hrun
    cases hrun
  refine ⟨fun hsmall hgood => ?_, hfit, fun hnd hsorts => ?_⟩
  · obtain ⟨m, hrun, hout⟩ := mergeSort_outcome hpos hbuf hsmall
    exact ⟨m, hrun, hout.sorts hgood⟩
  · obtain ⟨m, hrun, hout⟩ := mergeSort_outcome hpos hbuf (hfit hsorts)
    obtain ⟨m', hrun', hperm, hsorted⟩ := hsorts
    cases hrun.symm.trans hrun'
    exact hout.good hnd hperm hsorted

theorem good_append {left right : List Int} (hpos : 0 < left.length)
    (hlen : right.length = left.length ∨ right.length = left.length + 1) (hl : Good left)
    (hr : Good right) (hm : Mergeable left right) : Good (left ++ right) := by
  have hhalf : (left ++ right).length / 2 = left.length := by
    rw [List.length_append]
    omega
  have htwo : 2 ≤ (left ++ right).length := by
    rw [List.length_append]
    omega
  refine .halves htwo ?_ ?_ ?_ <;> rw [hhalf]
  · rwa [List.take_left]
  · rwa [List.drop_left]
  · rwa [List.take_left, List.drop_left]

theorem mergeSort_sorts_three : Sorts [3, 1, 2] [0, 0, 0] ∧ Good [3, 1, 2] := by
  have hone : ∀ x : Int, Good [x] := fun x => .small (Nat.le_refl 1)
  have hmax : ∀ x m : Int, [x].max? = some m → x = m := fun x m h => by simpa using h
  have hpair : Good [1, 2] := by
    refine @good_append [1] [2] (by decide) (.inl rfl) (hone 1) (hone 2) fun l m hl hm => ?_
    obtain rfl := hmax 1 l hl
    obtain rfl := hmax 2 m hm
    decide
  have hgood : Good [3, 1, 2] := by
    refine @good_append [3] [1, 2] (by decide) (.inr rfl) (hone 3) hpair fun l m hl hm => ?_
    obtain rfl := hmax 3 l hl
    obtain rfl : 2 = m := by simpa using hm
    decide
  have hsorts := (mergeSort_sorts_iff [3, 1, 2] [0, 0, 0] (by decide) (by decide)).1 (by decide) hgood
  exact ⟨hsorts, (mergeSort_sorts_iff [3, 1, 2] [0, 0, 0] (by decide) (by decide)).2.2 (by decide)
    hsorts⟩

/-- An array that is in order is not after it. -/
theorem not_sorts_three :
    (mergeSort [1, 2, 3] 3 [0, 0, 0]).map Memory.sortList = some [1, 3, 3] ∧
      ¬ Sorts [1, 2, 3] [0, 0, 0] := by
  have hrun : (mergeSort [1, 2, 3] 3 [0, 0, 0]).map Memory.sortList = some [1, 3, 3] := by decide
  refine ⟨hrun, ?_⟩
  rintro ⟨m, hm, hperm, -⟩
  have hlist : m.sortList = [1, 3, 3] := by
    have hmap : (mergeSort [1, 2, 3] 3 [0, 0, 0]).map Memory.sortList = some m.sortList :=
      congrArg (Option.map Memory.sortList) hm
    exact Option.some.inj (hmap.symm.trans hrun)
  rw [hlist] at hperm
  exact absurd hperm (by decide)

/-- Two wrong merges cancel out where a value occurs in both halves. -/
example : (mergeSort [6, 6, 1, 2, 1, 2, 1, 2, 1, 2, 1, 1, 1, 1, 2, 6] 16
    (List.replicate 16 0)).map Memory.sortList =
      some [1, 1, 1, 1, 1, 1, 1, 1, 2, 2, 2, 2, 2, 6, 6, 6] := by
  decide +kernel

end

end TextMining.MergeSort
