import Mathlib.Data.List.Nodup
import Mathlib.Data.List.Perm.Basic

/-!
# Records and the inputs they come from

A program reads inputs one after another and writes at most one record for
each to a file. A record may be of several lines.
-/

namespace TextMining.Provenance

variable {α β γ : Type*}

/-- The records of the inputs, each with the number of its input. -/
def collect (f : α → Option β) (inputs : List α) : List (Nat × β) :=
  inputs.zipIdx.filterMap fun e => (f e.1).map fun b => (e.2, b)

/-- The record of the input with number `k`. -/
def record (k : Nat) (b : Option β) : List (Nat × β) := (b.map fun b => (k, b)).toList

section
variable {f : α → Option β} {inputs : List α} {a : α} {b : β} {k : Nat}

theorem mem_collect : (k, b) ∈ collect f inputs ↔ ∃ a, inputs[k]? = some a ∧ f a = some b := by
  rw [collect, List.mem_filterMap]
  constructor
  · rintro ⟨⟨a, i⟩, hin, hb⟩
    obtain ⟨b', hb, he⟩ := Option.map_eq_some_iff.mp hb
    cases he
    exact ⟨a, List.mk_mem_zipIdx_iff_getElem?.mp hin, hb⟩
  · rintro ⟨a, hin, hb⟩
    exact ⟨(a, k), List.mk_mem_zipIdx_iff_getElem?.mpr hin, by rw [hb, Option.map_some]⟩

theorem collect_concat (f : α → Option β) (inputs : List α) (a : α) :
    collect f (inputs ++ [a]) =
      collect f inputs ++ record inputs.length (f a) := by
  rw [collect, List.zipIdx_append, List.filterMap_append, ← collect, List.zipIdx_singleton,
    Nat.zero_add, List.filterMap_cons, List.filterMap_nil, record]
  cases f a with
  | none => rfl
  | some b => rfl

theorem map_fst_collect (f : α → Option β) (inputs : List α) :
    (collect f inputs).map Prod.fst =
      (inputs.zipIdx.filter fun e => (f e.1).isSome).map Prod.snd := by
  rw [collect]
  induction inputs.zipIdx with
  | nil => rfl
  | cons e es ih =>
    cases hf : f e.1 with
    | none =>
      rw [List.filterMap_cons_none (by rw [hf, Option.map_none]), ih,
        List.filter_cons_of_neg (by simp [hf])]
    | some b =>
      rw [List.filterMap_cons_some (by rw [hf, Option.map_some]), List.map_cons, ih,
        List.filter_cons_of_pos (by simp [hf]), List.map_cons]

theorem nodup_collect (f : α → Option β) (inputs : List α) :
    ((collect f inputs).map Prod.fst).Nodup := by
  rw [map_fst_collect]
  refine (List.filter_sublist.map Prod.snd).nodup ?_
  rw [List.zipIdx_map_snd]
  exact List.nodup_range'

theorem collect_congr {g : α → Option γ} (h : ∀ a ∈ inputs, (f a).isSome = (g a).isSome) :
    (collect f inputs).map Prod.fst = (collect g inputs).map Prod.fst := by
  rw [map_fst_collect, map_fst_collect]
  refine congrArg _ (List.filter_congr fun e he => h e.1 ?_)
  exact List.mem_of_getElem? (List.mem_zipIdx_iff_getElem?.mp he)

end

-- ---------------------------------------------------------------------------
-- Lines
-- ---------------------------------------------------------------------------

section
variable [DecidableEq α]

/-- The inputs that the lines of a file come from; `nl` ends a line. -/
def origins (nl : α) (file : List (Nat × List α)) : List Nat :=
  file.flatMap fun r => List.replicate (r.2.count nl) r.1

variable {nl : α} {file : List (Nat × List α)} {text : List α} {k : Nat}

theorem mem_origins : k ∈ origins nl file ↔ ∃ text, (k, text) ∈ file ∧ nl ∈ text := by
  rw [origins, List.mem_flatMap]
  constructor
  · rintro ⟨r, hr, hk⟩
    obtain ⟨hcount, rfl⟩ := List.mem_replicate.mp hk
    exact ⟨r.2, hr, List.count_pos_iff.mp (Nat.pos_of_ne_zero hcount)⟩
  · rintro ⟨text, hr, hnl⟩
    exact ⟨(k, text), hr, List.mem_replicate.mpr ⟨Nat.ne_of_gt (List.count_pos_iff.mpr hnl), rfl⟩⟩

theorem count_origins (hd : (file.map Prod.fst).Nodup) (h : (k, text) ∈ file) :
    (origins nl file).count k = text.count nl := by
  induction file with
  | nil => cases h
  | cons r file ih =>
    obtain ⟨hr, hd⟩ := List.nodup_cons.mp hd
    rw [origins, List.flatMap_cons, List.count_append, ← origins]
    rcases List.mem_cons.mp h with rfl | h
    · have hrest : k ∉ origins nl file := by
        intro hk
        obtain ⟨t, ht, -⟩ := mem_origins.mp hk
        exact hr (List.mem_map.mpr ⟨_, ht, rfl⟩)
      rw [List.count_eq_zero_of_not_mem hrest, List.count_replicate_self, Nat.add_zero]
    · have hne : r.1 ≠ k := by
        rintro rfl
        exact hr (List.mem_map.mpr ⟨_, h, rfl⟩)
      rw [List.count_replicate, if_neg (by simpa using hne), Nat.zero_add]
      exact ih hd h

theorem origins_eq_map (h : ∀ r ∈ file, r.2.count nl = 1) :
    origins nl file = file.map Prod.fst := by
  rw [origins, List.map_eq_flatMap]
  refine List.flatMap_congr fun r hr => ?_
  rw [h r hr]
  rfl

theorem count_line (text : List α) (nl : α) : (text ++ [nl]).count nl = text.count nl + 1 := by
  rw [List.count_append, List.count_singleton_self]

theorem count_line_eq_one : (text ++ [nl]).count nl = 1 ↔ nl ∉ text := by
  rw [count_line, ← List.count_eq_zero]
  omega

end

end TextMining.Provenance
