import Mathlib.Data.List.Sort
import Mathlib.Order.Nat
import Mathlib.Order.Lattice

/-!
# The main loop of a merge

Two runs are merged until one of them is used up. `Merging as bs out ra rb` is
such a loop from the runs `as` and `bs`: it puts out `out` and leaves `ra` and
`rb`, one of which is empty.
-/

namespace TextMining

universe u

variable {α : Type u} [LinearOrder α]

inductive Merging : List α → List α → List α → List α → List α → Prop
  | leftDone (bs : List α) : Merging [] bs [] [] bs
  | rightDone (as : List α) : Merging as [] [] as []
  | takeLeft {a b : α} {as bs out ra rb : List α} (hle : a ≤ b)
    (rest : Merging as (b :: bs) out ra rb) : Merging (a :: as) (b :: bs) (a :: out) ra rb
  | takeRight {a b : α} {as bs out ra rb : List α} (hlt : b < a)
    (rest : Merging (a :: as) bs out ra rb) : Merging (a :: as) (b :: bs) (b :: out) ra rb

namespace Merging

variable {as bs out ra rb : List α}

theorem exists_loop (as bs : List α) : ∃ out ra rb, Merging as bs out ra rb := by
  induction as generalizing bs with
  | nil => exact ⟨[], [], bs, .leftDone bs⟩
  | cons a as ih =>
    induction bs with
    | nil => exact ⟨[], a :: as, [], .rightDone _⟩
    | cons b bs ihb =>
      rcases le_or_gt a b with hle | hlt
      · obtain ⟨out, ra, rb, h⟩ := ih (b :: bs)
        exact ⟨a :: out, ra, rb, .takeLeft hle h⟩
      · obtain ⟨out, ra, rb, h⟩ := ihb
        exact ⟨b :: out, ra, rb, .takeRight hlt h⟩

theorem rest_nil (h : Merging as bs out ra rb) : ra = [] ∨ rb = [] := by
  induction h with
  | leftDone bs => exact .inl rfl
  | rightDone as => exact .inr rfl
  | takeLeft _ _ ih => exact ih
  | takeRight _ _ ih => exact ih

theorem rest_ne_nil (h : Merging as bs out ra rb) (hne : as ≠ [] ∨ bs ≠ []) : ra ++ rb ≠ [] := by
  induction h with
  | leftDone bs => simpa using hne
  | rightDone as => simpa using hne
  | takeLeft _ _ ih => exact ih (.inr (List.cons_ne_nil _ _))
  | takeRight _ _ ih => exact ih (.inl (List.cons_ne_nil _ _))

theorem out_ne_nil (h : Merging as bs out ra rb) (has : as ≠ []) (hbs : bs ≠ []) : out ≠ [] := by
  cases h with
  | leftDone bs => exact absurd rfl has
  | rightDone as => exact absurd rfl hbs
  | takeLeft => exact List.cons_ne_nil _ _
  | takeRight => exact List.cons_ne_nil _ _

theorem perm (h : Merging as bs out ra rb) : (out ++ (ra ++ rb)).Perm (as ++ bs) := by
  induction h with
  | leftDone bs => exact .refl _
  | rightDone as => simp
  | takeLeft _ _ ih => exact ih.cons _
  | takeRight _ _ ih => exact (ih.cons _).trans List.perm_middle.symm

theorem left_sublist (h : Merging as bs out ra rb) : as.Sublist (out ++ ra) := by
  induction h with
  | leftDone bs => exact .slnil
  | rightDone as => exact .refl _
  | takeLeft _ _ ih => exact ih.cons_cons _
  | takeRight _ _ ih => exact ih.cons _

theorem right_sublist (h : Merging as bs out ra rb) : bs.Sublist (out ++ rb) := by
  induction h with
  | leftDone bs => exact .refl _
  | rightDone as => exact .slnil
  | takeLeft _ _ ih => exact ih.cons _
  | takeRight _ _ ih => exact ih.cons_cons _

theorem left_suffix (h : Merging as bs out ra rb) : ra <:+ as := by
  induction h with
  | leftDone bs => exact List.suffix_refl _
  | rightDone as => exact List.suffix_refl _
  | takeLeft _ _ ih => exact ih.trans (List.suffix_cons _ _)
  | takeRight _ _ ih => exact ih

theorem right_suffix (h : Merging as bs out ra rb) : rb <:+ bs := by
  induction h with
  | leftDone bs => exact List.suffix_refl _
  | rightDone as => exact List.suffix_refl _
  | takeLeft _ _ ih => exact ih
  | takeRight _ _ ih => exact ih.trans (List.suffix_cons _ _)

theorem sorted (h : Merging as bs out ra rb) (has : as.Pairwise (· ≤ ·))
    (hbs : bs.Pairwise (· ≤ ·)) : (out ++ (ra ++ rb)).Pairwise (· ≤ ·) := by
  induction h with
  | leftDone bs => exact hbs
  | rightDone as => simpa using has
  | @takeLeft a b as bs out ra rb hle rest ih =>
    obtain ⟨ha, has⟩ := List.pairwise_cons.mp has
    refine List.pairwise_cons.mpr ⟨fun x hx => ?_, ih has hbs⟩
    rcases List.mem_append.mp (rest.perm.mem_iff.mp hx) with hx | hx
    · exact ha x hx
    · rcases List.mem_cons.mp hx with rfl | hx
      · exact hle
      · exact hle.trans (List.rel_of_pairwise_cons hbs hx)
  | @takeRight a b as bs out ra rb hlt rest ih =>
    obtain ⟨hb, hbs⟩ := List.pairwise_cons.mp hbs
    refine List.pairwise_cons.mpr ⟨fun x hx => ?_, ih has hbs⟩
    rcases List.mem_append.mp (rest.perm.mem_iff.mp hx) with hx | hx
    · rcases List.mem_cons.mp hx with rfl | hx
      · exact hlt.le
      · exact hlt.le.trans (List.rel_of_pairwise_cons has hx)
    · exact hb x hx

theorem lt_left (h : Merging as bs out ra rb) (has : as.Pairwise (· ≤ ·)) (hrb : rb = []) :
    ∀ b ∈ bs, ∀ a ∈ ra, b < a := by
  induction h with
  | leftDone bs => simp
  | rightDone as => simp
  | takeLeft _ _ ih => exact ih (List.pairwise_cons.mp has).2 hrb
  | @takeRight a b as bs out ra rb hlt rest ih =>
    intro x hx y hy
    rcases List.mem_cons.mp hx with rfl | hx
    · rcases List.mem_cons.mp (rest.left_suffix.subset hy) with rfl | hy
      · exact hlt
      · exact hlt.trans_le (List.rel_of_pairwise_cons has hy)
    · exact ih has hrb x hx y hy

theorem exists_lt (h : Merging as bs out ra rb) :
    ∃ taken, bs = taken ++ rb ∧ ∀ b ∈ taken, ∃ a ∈ as, b < a := by
  induction h with
  | leftDone bs => exact ⟨[], rfl, by simp⟩
  | rightDone as => exact ⟨[], rfl, by simp⟩
  | @takeLeft a b as bs out ra rb hle rest ih =>
    obtain ⟨taken, htaken, hlt⟩ := ih
    refine ⟨taken, htaken, fun x hx => ?_⟩
    obtain ⟨y, hy, hxy⟩ := hlt x hx
    exact ⟨y, List.mem_cons_of_mem _ hy, hxy⟩
  | @takeRight a b as bs out ra rb hlt rest ih =>
    obtain ⟨taken, rfl, hlt'⟩ := ih
    refine ⟨b :: taken, rfl, fun x hx => ?_⟩
    rcases List.mem_cons.mp hx with rfl | hx
    · exact ⟨a, List.mem_cons_self, hlt⟩
    · exact hlt' x hx

theorem exists_le (h : Merging as bs out ra rb) :
    ∃ taken, as = taken ++ ra ∧ ∀ a ∈ taken, ∃ b ∈ bs, a ≤ b := by
  induction h with
  | leftDone bs => exact ⟨[], rfl, by simp⟩
  | rightDone as => exact ⟨[], rfl, by simp⟩
  | @takeLeft a b as bs out ra rb hle rest ih =>
    obtain ⟨taken, rfl, hle'⟩ := ih
    refine ⟨a :: taken, rfl, fun x hx => ?_⟩
    rcases List.mem_cons.mp hx with rfl | hx
    · exact ⟨b, List.mem_cons_self, hle⟩
    · exact hle' x hx
  | @takeRight a b as bs out ra rb hlt rest ih =>
    obtain ⟨taken, htaken, hle⟩ := ih
    refine ⟨taken, htaken, fun x hx => ?_⟩
    obtain ⟨y, hy, hxy⟩ := hle x hx
    exact ⟨y, List.mem_cons_of_mem _ hy, hxy⟩

end Merging

end TextMining
