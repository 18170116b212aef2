import Mathlib.Algebra.Order.Ring.Nat
import Mathlib.Data.List.TakeWhile

/-!
# Byte strings of C
-/

namespace TextMining

def text (s : String) : List UInt8 := s.toList.map fun c => UInt8.ofNat c.toNat

/-- The C string at the front of a buffer: the bytes before the first NUL. -/
def cstr (bytes : List UInt8) : List UInt8 := bytes.takeWhile (· ≠ 0)

/-- The C string that `snprintf(buf, n, "%s", bytes)` leaves in `buf`. -/
def snprintf (n : Nat) (bytes : List UInt8) : List UInt8 := (cstr bytes).take (n - 1)

/-- An array of `n` chars that holds a C string; what lies behind the string was
never written. -/
def charArray (n : Nat) (junk str : List UInt8) : List UInt8 :=
  (str ++ 0 :: junk ++ List.replicate n 0).take n

theorem cstr_ne_zero {bytes : List UInt8} : ∀ b ∈ cstr bytes, b ≠ 0 :=
  fun _ hb => by simpa using List.mem_takeWhile_imp hb

theorem cstr_of_ne_zero {bytes : List UInt8} (h : ∀ b ∈ bytes, b ≠ 0) : cstr bytes = bytes := by
  simpa [cstr, List.takeWhile_eq_self_iff] using h

theorem length_charArray (n : Nat) (junk str : List UInt8) : (charArray n junk str).length = n := by
  simp only [charArray, List.length_take, List.length_append, List.length_cons,
    List.length_replicate]
  omega

theorem cstr_charArray {n : Nat} {str : List UInt8} (hlen : str.length < n) (h : ∀ b ∈ str, b ≠ 0)
    (junk : List UInt8) : cstr (charArray n junk str) = str := by
  obtain ⟨k, hk⟩ := Nat.exists_eq_add_of_lt hlen
  have hend : (0 :: junk ++ List.replicate n 0).take (k + 1) =
      0 :: (junk ++ List.replicate n 0).take k := rfl
  rw [charArray, List.append_assoc, List.take_append, List.take_of_length_le hlen.le,
    show n - str.length = k + 1 by omega, hend, cstr,
    List.takeWhile_append_of_pos fun b hb => decide_eq_true (h b hb)]
  simp

theorem snprintf_ne_zero {n : Nat} {bytes : List UInt8} : ∀ b ∈ snprintf n bytes, b ≠ 0 :=
  fun b hb => cstr_ne_zero b (List.mem_of_mem_take hb)

theorem length_snprintf_le (n : Nat) (bytes : List UInt8) : (snprintf n bytes).length ≤ n - 1 :=
  List.length_take_le _ _

-- ---------------------------------------------------------------------------
-- Bounded appends
-- ---------------------------------------------------------------------------

/-- The texts that a buffer holds one after the other, while pieces are
appended as long as the text is shorter than `limit`. -/
def appendWhile (limit : Nat) : List (List UInt8) → List UInt8 → List (List UInt8)
  | [], _ => []
  | piece :: pieces, buf =>
    if buf.length < limit then (buf ++ piece) :: appendWhile limit pieces (buf ++ piece) else []

theorem appendWhile_lt {limit size : Nat} {pieces : List (List UInt8)}
    (h : ∀ piece ∈ pieces, limit + piece.length ≤ size) (buf : List UInt8) :
    ∀ b ∈ appendWhile limit pieces buf, b.length < size := by
  induction pieces generalizing buf with
  | nil => exact fun b hb => nomatch hb
  | cons piece pieces ih =>
    rw [appendWhile]
    rw [List.forall_mem_cons] at h
    split
    · rename_i hlt
      refine List.forall_mem_cons.mpr ⟨?_, ih h.2 _⟩
      rw [List.length_append]
      omega
    · exact fun b hb => nomatch hb

end TextMining
