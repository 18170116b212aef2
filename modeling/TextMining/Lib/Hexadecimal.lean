import Mathlib.Data.Nat.Basic
import Mathlib.Tactic.Linarith

/-!
# Hexadecimal text

Numbers as `printf` writes them to the base sixteen with a least number of digits,
and their value. Readers take as many digits as they allow, so a text that follows a
number must not go on with a digit unless the number fills its field.
-/

namespace TextMining.Hexadecimal

def digit (d : Nat) : UInt8 := if d < 10 then UInt8.ofNat (48 + d) else UInt8.ofNat (55 + d)

def isDigit (b : UInt8) : Bool := (48 ≤ b && b ≤ 57) || (65 ≤ b && b ≤ 70) || (97 ≤ b && b ≤ 102)

def digitValue (b : UInt8) : Nat :=
  if b ≤ 57 then b.toNat - 48 else if b ≤ 70 then b.toNat - 55 else b.toNat - 87

/-- `%.<p>X`. -/
def print (p n : Nat) : List UInt8 :=
  if n < 16 ∧ p ≤ 1 then [digit n] else print (p - 1) (n / 16) ++ [digit (n % 16)]
termination_by p + n
decreasing_by omega

def value (text : List UInt8) : Nat := text.foldl (fun n b => 16 * n + digitValue b) 0

def take (k : Nat) (text : List UInt8) : List UInt8 := (text.takeWhile isDigit).take k

variable {p n k d : Nat} {text rest : List UInt8}

theorem isDigit_digit (h : d < 16) : isDigit (digit d) = true := by
  have hall : ∀ d : Fin 16, isDigit (digit d) = true := by decide
  exact hall ⟨d, h⟩

theorem digitValue_digit (h : d < 16) : digitValue (digit d) = d := by
  have hall : ∀ d : Fin 16, digitValue (digit d) = d := by decide
  exact hall ⟨d, h⟩

theorem digitValue_lt {b : UInt8} (h : isDigit b = true) : digitValue b < 16 := by
  have hall : ∀ n : Fin 256, isDigit (UInt8.ofNat n) = true → digitValue (UInt8.ofNat n) < 16 := by
    decide +kernel
  simpa only [UInt8.ofNat_toNat] using hall ⟨b.toNat, b.toNat_lt⟩ (by simpa using h)

theorem isDigit_print : ∀ b ∈ print p n, isDigit b = true := by
  fun_induction print p n with
  | case1 p n h =>
    intro b hb
    obtain rfl := List.mem_singleton.mp hb
    exact isDigit_digit h.1
  | case2 p n h ih =>
    intro b hb
    rcases List.mem_append.mp hb with hb | hb
    · exact ih b hb
    · obtain rfl := List.mem_singleton.mp hb
      exact isDigit_digit (Nat.mod_lt _ (by decide))

theorem value_print (p n : Nat) : value (print p n) = n := by
  fun_induction print p n with
  | case1 p n h => simp [value, digitValue_digit h.1]
  | case2 p n h ih =>
    rw [value] at ih ⊢
    rw [List.foldl_append, ih, List.foldl_cons, List.foldl_nil,
      digitValue_digit (Nat.mod_lt _ (by decide))]
    omega

theorem print_ne_nil (p n : Nat) : print p n ≠ [] := by
  rw [print]
  split_ifs <;> simp

theorem length_print (hp : 0 < p) (h : n < 16 ^ p) : (print p n).length = p := by
  induction p, hp using Nat.le_induction generalizing n with
  | base =>
    rw [print, if_pos ⟨by simpa using h, Nat.le_refl 1⟩]
    rfl
  | succ p hp ih =>
    have hdiv : n / 16 < 16 ^ p := Nat.div_lt_of_lt_mul (by rwa [pow_succ, Nat.mul_comm] at h)
    rw [print, if_neg (by omega), List.length_append, Nat.add_sub_cancel, ih hdiv]
    rfl

theorem take_full (h : ∀ b ∈ text, isDigit b = true) (hlen : text.length = k) :
    take k (text ++ rest) = text := by
  rw [take, List.takeWhile_append_of_pos h, ← hlen, List.take_left]

theorem take_short (h : ∀ b ∈ text, isDigit b = true) (hlen : text.length ≤ k)
    (hrest : ∀ b ∈ rest.head?, isDigit b = false) : take k (text ++ rest) = text := by
  have hnil : rest.takeWhile isDigit = [] := by
    cases rest with
    | nil => rfl
    | cons c rest => exact List.takeWhile_cons_of_neg (by simp [hrest c rfl])
  rw [take, List.takeWhile_append_of_pos h, hnil, List.append_nil, List.take_of_length_le hlen]

end TextMining.Hexadecimal
