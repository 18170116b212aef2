import Mathlib.Algebra.Group.Nat.Defs
import Mathlib.Data.Nat.Log
import Mathlib.Tactic.Common

/-!
# Integers as floating-point numbers

A floating-point number with `p` significant bits holds every integer up to
`2 ^ p`, and a larger one rounded to the nearest multiple of a power of two,
ties to even. Sums and differences of such integers are rounded again.
-/

namespace TextMining

def roundNat (p n : Nat) : Nat :=
  let ulp := 2 ^ (n.log2 + 1 - p)
  let up := ulp < 2 * (n % ulp) ∨ ulp = 2 * (n % ulp) ∧ n / ulp % 2 = 1
  (if up then n / ulp + 1 else n / ulp) * ulp

/-- The value of `float(z)` for an `int`. -/
def float (z : Int) : Int := if z < 0 then -(roundNat 24 z.natAbs : Int) else roundNat 24 z.natAbs

theorem roundNat_of_ulp {p n : Nat} (h : 2 ^ (n.log2 + 1 - p) ∣ n) : roundNat p n = n := by
  have hr : n % 2 ^ (n.log2 + 1 - p) = 0 := Nat.mod_eq_zero_of_dvd h
  have hpos : 0 < 2 ^ (n.log2 + 1 - p) := Nat.two_pow_pos _
  simp only [roundNat, hr, Nat.mul_zero, Nat.not_lt_zero, hpos.ne', false_and, or_self, if_false]
  exact Nat.div_mul_cancel h

theorem roundNat_of_le {p n : Nat} (hp : 0 < p) (h : n ≤ 2 ^ p) : roundNat p n = n := by
  refine roundNat_of_ulp ?_
  rcases Nat.lt_or_eq_of_le h with hlt | rfl
  · cases n with
    | zero => exact Nat.dvd_zero _
    | succ n =>
      have hlog : (n + 1).log2 < p := (Nat.log2_lt (Nat.succ_ne_zero n)).mpr hlt
      rw [Nat.sub_eq_zero_of_le hlog]
      exact Nat.one_dvd _
  · rw [Nat.log2_two_pow, Nat.add_sub_cancel_left]
    exact Nat.pow_dvd_pow 2 hp

/-- Integers of up to 24 bits are kept. -/
theorem float_of_le {z : Int} (h : z.natAbs ≤ 2 ^ 24) : float z = z := by
  rw [float, roundNat_of_le (by decide) h]
  omega

end TextMining
