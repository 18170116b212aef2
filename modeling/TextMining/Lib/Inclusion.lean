import Mathlib.Data.List.Chain
import Mathlib.Tactic.Common

/-!
# Files that include files

An item of a file has an own part and may name a file that it includes. A file
is expanded to a depth; where no chain of includes is longer, the depth does
not matter. A file that is missing expands to nothing.
-/

namespace TextMining.Inclusion

variable {F β M : Type*}

/-- What an item contributes, from the expansion of its include and its own part. -/
abbrev Place (β : Type*) := List β → β → List β

/-- The own part comes where the item stands: before what the item includes. -/
def inPlace : Place β := fun included own => own :: included

/-- The own part comes behind what the item includes. -/
def includeFirst : Place β := fun included own => included ++ [own]

section
variable (files : F → Option (List (Option F × β))) (place : Place β)

def expand : Nat → F → List β
  | 0, _ => []
  | depth + 1, f => ((files f).getD []).flatMap fun i => place (i.1.elim [] (expand depth)) i.2

def Includes (f g : F) : Prop :=
  ∃ items, files f = some items ∧ ∃ i ∈ items, i.1 = some g ∧ (files g).isSome

def Within (n : Nat) (f : F) : Prop :=
  ∀ gs, List.IsChain (Includes files) (f :: gs) → gs.length ≤ n

variable {files} {f g : F} {n depth : Nat} {items : List (Option F × β)}

theorem Within.of_includes (h : Within files (n + 1) f) (hg : Includes files f g) :
    Within files n g := by
  intro gs hgs
  have hlen := h (g :: gs) (List.isChain_cons_cons.mpr ⟨hg, hgs⟩)
  exact Nat.le_of_succ_le_succ hlen

theorem not_includes_of_within (h : Within files 0 f) : ¬Includes files f g := fun hg =>
  Nat.not_succ_le_zero _ (h [g] (List.isChain_cons_cons.mpr ⟨hg, .singleton g⟩))

theorem expand_missing (h : files f = none) (depth : Nat) : expand files place depth f = [] := by
  cases depth with
  | zero => rfl
  | succ depth => rw [expand, h, Option.getD_none, List.flatMap_nil]

theorem expand_file (h : files f = some items) (depth : Nat) :
    expand files place (depth + 1) f =
      items.flatMap fun i => place (i.1.elim [] (expand files place depth)) i.2 := by
  rw [expand, h, Option.getD_some]

theorem exists_of_mem_expand {own : β} (h : own ∈ expand files includeFirst depth f) :
    ∃ g items, files g = some items ∧ ∃ i ∈ items, i.2 = own := by
  induction depth generalizing f with
  | zero => cases h
  | succ depth ih =>
    cases hf : files f with
    | none =>
      rw [expand_missing _ hf] at h
      cases h
    | some items =>
      rw [expand_file _ hf, List.mem_flatMap] at h
      obtain ⟨i, hi, h⟩ := h
      rcases List.mem_append.mp h with h | h
      · cases hinc : i.1 with
        | none =>
          rw [hinc] at h
          cases h
        | some g =>
          rw [hinc] at h
          exact ih h
      · exact ⟨f, items, hf, i, hi, (List.mem_singleton.mp h).symm⟩

theorem expand_congr {d d' : Nat}
    (h : ∀ g, (∃ items, files f = some items ∧ ∃ i ∈ items, i.1 = some g) →
      expand files place d g = expand files place d' g) :
    expand files place (d + 1) f = expand files place (d' + 1) f := by
  cases hf : files f with
  | none => rw [expand_missing place hf, expand_missing place hf]
  | some items =>
    rw [expand_file place hf, expand_file place hf]
    refine List.flatMap_congr fun i hi => ?_
    cases hinc : i.1 with
    | none => rfl
    | some g => rw [Option.elim_some, Option.elim_some, h g ⟨items, hf, i, hi, hinc⟩]

theorem expand_eq_of_within (h : Within files n f) (hd : n + 1 ≤ depth) :
    expand files place depth f = expand files place (n + 1) f := by
  induction n generalizing f depth with
  | zero =>
    obtain ⟨d, rfl⟩ := Nat.exists_eq_add_of_le' hd
    apply expand_congr
    rintro g ⟨items, hf, i, hi, hinc⟩
    have hg : files g = none := by
      rw [← Option.not_isSome_iff_eq_none]
      exact fun hg => not_includes_of_within h ⟨items, hf, i, hi, hinc, hg⟩
    rw [expand_missing place hg, expand_missing place hg]
  | succ n ih =>
    obtain ⟨d, rfl⟩ := Nat.exists_eq_add_of_le' hd
    rw [← Nat.add_assoc d]
    apply expand_congr
    rintro g ⟨items, hf, i, hi, hinc⟩
    cases hg : files g with
    | none => rw [expand_missing place hg, expand_missing place hg]
    | some _ =>
      have hstep : Includes files f g := ⟨items, hf, i, hi, hinc, by rw [hg]; rfl⟩
      rw [ih (h.of_includes hstep) (by omega)]

end

-- ---------------------------------------------------------------------------
-- Processing an expansion
-- ---------------------------------------------------------------------------

section
variable {files : F → Option (List (Option F × β))} {step : M → β → M}

/-- Where an item that includes a file has an own part without effect, it does
not matter on which side of the included file the part stands. -/
theorem foldl_expand_inPlace
    (h : ∀ f items, files f = some items → ∀ i ∈ items, i.1.isSome → ∀ m, step m i.2 = m)
    (depth : Nat) (f : F) (m : M) :
    (expand files inPlace depth f).foldl step m =
      (expand files includeFirst depth f).foldl step m := by
  induction depth generalizing f m with
  | zero => rfl
  | succ depth ih =>
    cases hf : files f with
    | none => rw [expand_missing _ hf, expand_missing _ hf]
    | some items =>
      rw [expand_file _ hf, expand_file _ hf, List.foldl_flatMap, List.foldl_flatMap]
      refine List.foldl_ext _ _ _ fun m i hi => ?_
      rw [inPlace, includeFirst, List.foldl_cons, List.foldl_append, List.foldl_cons,
        List.foldl_nil]
      cases hinc : i.1 with
      | none => rfl
      | some g =>
        have hown := h f items hf i hi (by rw [hinc]; rfl)
        rw [hown, hown, Option.elim_some, Option.elim_some, ih]

end

end TextMining.Inclusion
