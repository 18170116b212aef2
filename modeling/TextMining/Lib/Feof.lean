import TextMining.Lib.Codec

/-!
# Loops until the end of a file

`feof` is true once a read has hit the end of the file, not when its last byte
is read. So a loop `while(!feof(file))` over records runs once more after the
last of them, and the variables it reads into keep their values in that run.
-/

namespace TextMining

universe u v

/-- The bytes that are left of an open file, and whether a read has hit its end. -/
structure InFile where
  bytes : List UInt8
  eof : Bool

namespace InFile

/-- `fread` into a variable that holds `old`. -/
def read {α : Type u} (decode : List UInt8 → Option (α × List UInt8)) (old : α) (f : InFile) :
    α × InFile :=
  match decode f.bytes with
  | some (a, rest) => (a, { f with bytes := rest })
  | none => (old, ⟨[], true⟩)

theorem read_append {α : Type u} {decode : List UInt8 → Option (α × List UInt8)}
    {item rest : List UInt8} {a : α} (h : decode (item ++ rest) = some (a, rest)) (old : α)
    (eof : Bool) : read decode old ⟨item ++ rest, eof⟩ = (a, ⟨rest, eof⟩) := by simp [read, h]

theorem read_nil {α : Type u} {decode : List UInt8 → Option (α × List UInt8)}
    (h : decode [] = none) (old : α) (eof : Bool) : read decode old ⟨[], eof⟩ = (old, ⟨[], true⟩) := by
  simp [read, h]

end InFile

section
variable {σ : Type u} {ρ : Type v}

/-- `while(!feof(file))`; `none` when the body returns or the fuel runs out. -/
def feofLoop (step : InFile → σ → Option (InFile × σ)) : Nat → InFile → σ → Option σ
  | 0, _, _ => none
  | fuel + 1, f, s =>
    if f.eof then some s
    else
      match step f s with
      | none => none
      | some (f, s) => feofLoop step fuel f s

/-- A loop over a file of records does `apply` for each of them and `last` in the
run after them. `P` is an invariant of the loop. -/
theorem feofLoop_records {step : InFile → σ → Option (InFile × σ)} (write : ρ → List UInt8)
    (apply : σ → ρ → σ) (last : σ → σ) (P : σ → Prop) {records : List ρ}
    (hstep : ∀ r ∈ records, ∀ s, P s → P (apply s r) ∧
      ∀ rest, step ⟨write r ++ rest, false⟩ s = some (⟨rest, false⟩, apply s r))
    (hlast : ∀ s, P s → step ⟨[], false⟩ s = some (⟨[], true⟩, last s)) {fuel : Nat}
    (hfuel : records.length + 1 < fuel) {s : σ} (hs : P s) :
    feofLoop step fuel ⟨records.flatMap write, false⟩ s = some (last (records.foldl apply s)) := by
  induction records generalizing fuel s with
  | nil =>
    obtain ⟨fuel, rfl⟩ : ∃ k, fuel = k + 2 := ⟨fuel - 2, by simp at hfuel; omega⟩
    rw [List.flatMap_nil, feofLoop, hlast s hs]
    rfl
  | cons r records ih =>
    cases fuel with
    | zero => exact absurd hfuel (Nat.not_lt_zero _)
    | succ fuel =>
      obtain ⟨hP, hr⟩ := hstep r (by simp) s hs
      rw [List.flatMap_cons, feofLoop, hr]
      refine ih (fun r hr => hstep r (by simp [hr])) ?_ hP
      simp only [List.length_cons] at hfuel
      omega

theorem length_le_flatMap (write : ρ → List UInt8) {records : List ρ}
    (h : ∀ r ∈ records, write r ≠ []) : records.length ≤ (records.flatMap write).length := by
  induction records with
  | nil => exact Nat.le_refl 0
  | cons r records ih =>
    have hpos : 0 < (write r).length := List.length_pos_iff.mpr (h r (by simp))
    have hle := ih fun r hr => h r (by simp [hr])
    rw [List.flatMap_cons, List.length_append, List.length_cons]
    omega

end

end TextMining
