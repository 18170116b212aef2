import Mathlib.Data.List.Basic
import Mathlib.Order.Nat

/-!
# Hashing block by block

A hash keeps a state, into which it absorbs a key a block at a time: it mixes the
state between blocks and finishes after the last one, which may be short. An
empty key leaves the state alone.
-/

namespace TextMining

structure BlockHash (σ α : Type*) where
  size : Nat
  size_pos : 0 < size
  absorb : σ → List α → σ
  mix : σ → σ
  finish : σ → σ

namespace BlockHash

variable {σ α : Type*} (H : BlockHash σ α) {s s' : σ} {x y xs ys pre : List α}

def run (s : σ) (xs : List α) : σ :=
  if H.size < xs.length then run (H.mix (H.absorb s (xs.take H.size))) (xs.drop H.size)
  else if xs = [] then s
  else H.finish (H.absorb s xs)
termination_by xs.length
decreasing_by
  have := H.size_pos
  simp
  omega

theorem run_nil : H.run s [] = s := by
  rw [run]
  simp

theorem run_last (hne : xs ≠ []) (hlen : xs.length ≤ H.size) :
    H.run s xs = H.finish (H.absorb s xs) := by
  rw [run, if_neg (Nat.not_lt_of_le hlen), if_neg hne]

theorem run_block (hlen : x.length = H.size) (hne : xs ≠ []) :
    H.run s (x ++ xs) = H.run (H.mix (H.absorb s x)) xs := by
  have hlong : H.size < (x ++ xs).length := by
    have hpos := List.length_pos_iff.mpr hne
    simp
    omega
  rw [run, if_pos hlong, ← hlen]
  simp

/-- Mixing and finishing forget nothing of the state, and absorbing neither the
state nor, among blocks of one length, the block. -/
structure Reversible (H : BlockHash σ α) : Prop where
  mix : Function.Injective H.mix
  finish : Function.Injective H.finish
  absorb_state : ∀ x : List α, Function.Injective fun s => H.absorb s x
  absorb_block : ∀ s x y, x.length = y.length → x.length ≤ H.size →
    H.absorb s x = H.absorb s y → x = y

section
variable {H} (h : H.Reversible)
include h

/-- A hash of a given key is an injection on the states. -/
theorem Reversible.run_inj (heq : H.run s xs = H.run s' xs) : s = s' := by
  induction hn : xs.length using Nat.strong_induction_on generalizing xs s s' with
  | _ n ih =>
    rw [run.eq_def H s, run.eq_def H s'] at heq
    split at heq
    · rename_i hlong
      have hpos := H.size_pos
      have hmix := ih (xs.drop H.size).length (by simp; omega) heq rfl
      exact h.absorb_state _ (h.mix hmix)
    · split at heq
      · exact heq
      · exact h.absorb_state _ (h.finish heq)

/-- Two keys that differ in one block end in different states. -/
theorem Reversible.run_block_inj (hpre : H.size ∣ pre.length) (hlen : x.length = y.length)
    (hle : x.length ≤ H.size) (hfull : x.length = H.size ∨ xs = [])
    (heq : H.run s (pre ++ (x ++ xs)) = H.run s (pre ++ (y ++ xs))) : x = y := by
  cases x with
  | nil => exact (List.length_eq_zero_iff.mp hlen.symm).symm
  | cons a x =>
    cases y with
    | nil => cases hlen
    | cons b y =>
      obtain ⟨n, hn⟩ := hpre
      induction n generalizing pre s with
      | zero =>
        rw [Nat.mul_zero, List.length_eq_zero_iff] at hn
        subst hn
        rw [List.nil_append, List.nil_append] at heq
        cases xs with
        | nil =>
          rw [List.append_nil, List.append_nil, H.run_last (List.cons_ne_nil a x) hle,
            H.run_last (List.cons_ne_nil b y) (hlen ▸ hle)] at heq
          exact h.absorb_block s _ _ hlen hle (h.finish heq)
        | cons c xs =>
          have hsize := hfull.resolve_right (List.cons_ne_nil c xs)
          rw [H.run_block hsize (List.cons_ne_nil c xs),
            H.run_block (hlen.symm.trans hsize) (List.cons_ne_nil c xs)] at heq
          exact h.absorb_block s _ _ hlen hle (h.mix (h.run_inj heq))
      | succ n ih =>
        have hfirst : (pre.take H.size).length = H.size := by
          simp [hn, Nat.mul_add]
        rw [← List.take_append_drop H.size pre, List.append_assoc, List.append_assoc,
          H.run_block hfirst (by simp), H.run_block hfirst (by simp)] at heq
        exact ih heq (by simp [hn, Nat.mul_add])

end

end BlockHash

end TextMining
