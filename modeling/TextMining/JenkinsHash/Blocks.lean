import Mathlib.Algebra.BigOperators.Group.List.Basic
import Mathlib.Data.UInt
import Mathlib.Tactic.IntervalCases
import TextMining.Lib.BlockHash
import TextMining.JenkinsHash.Lookup

/-!
# The blocks of lookup3

Whatever way the code takes to a key, it absorbs the key's bytes as numbers in one
byte order, padded with zeros to the twelve bytes of a block.
-/

namespace TextMining.JenkinsHash

def shift : ByteOrder → Nat → UInt32
  | .little, i => .ofNat (8 * i)
  | .big, i => .ofNat (24 - 8 * i)

/-- Up to four bytes as a number, the missing ones taken for zeros. -/
def word (o : ByteOrder) (bs : List UInt8) : UInt32 :=
  (bs.mapIdx fun i b => b.toUInt32 <<< shift o i).sum

def absorb (o : ByteOrder) (r : Regs) (bs : List UInt8) : Regs :=
  ⟨r.a + word o (bs.take 4), r.b + word o ((bs.drop 4).take 4), r.c + word o (bs.drop 8)⟩

def lookup3 (o : ByteOrder) : BlockHash Regs UInt8 := ⟨12, by decide, absorb o, mix, final⟩

def bytes (mem : Memory) (key length : Nat) : List UInt8 := (List.range' key length).map mem

variable {m : Machine} {mem : Memory} {o : ByteOrder} {r : Regs} {k length n : Nat}

@[simp] theorem length_bytes : (bytes mem k n).length = n := by simp [bytes]

theorem bytes_eq_nil : bytes mem k n = [] ↔ n = 0 := by simp [bytes]

theorem bytes_add : bytes mem k (n + length) = bytes mem k n ++ bytes mem (k + n) length := by
  simp [bytes, ← List.range'_append_1]

theorem take_bytes : (bytes mem k n).take length = bytes mem k (min length n) := by
  unfold bytes
  rw [← List.map_take]
  rcases Nat.le_total length n with h | h
  · rw [List.take_range'_of_length_ge h, Nat.min_eq_left h]
  · rw [List.take_range'_of_length_le h, Nat.min_eq_right h]

theorem drop_bytes : (bytes mem k n).drop length = bytes mem (k + length) (n - length) := by
  unfold bytes
  rw [← List.map_drop, List.drop_range', Nat.mul_one]

@[simp] theorem word_zero : word o (bytes mem k 0) = 0 := rfl

theorem word_succ : word o (bytes mem k (n + 1)) =
    word o (bytes mem k n) + (load8 mem (k + n) <<< shift o n) := by
  rw [bytes_add, word, word, List.mapIdx_append, List.sum_append]
  simp [bytes, load8]

theorem add_word_succ (x : UInt32) : x + word o (bytes mem k (n + 1)) =
    x + (load8 mem (k + n) <<< shift o n) + word o (bytes mem k n) := by
  rw [word_succ, UInt32.add_comm (word o _), UInt32.add_assoc]

theorem absorb_bytes : absorb o r (bytes mem k n) =
    ⟨r.a + word o (bytes mem k (min 4 n)), r.b + word o (bytes mem (k + 4) (min 4 (n - 4))),
      r.c + word o (bytes mem (k + 8) (n - 8))⟩ := by
  simp only [absorb, take_bytes, drop_bytes]

-- ---------------------------------------------------------------------------
-- A byte at a time
-- ---------------------------------------------------------------------------

theorem block8_eq : block8 mem k r = absorb .little r (bytes mem k 12) := by
  simp [block8, absorb_bytes, word_succ, shift, ← UInt32.add_assoc]

theorem tail8_spec (hn : n ≤ 12) : tail8 mem k n r =
    if n = 0 then none else some (absorb .little r (bytes mem k n)) := by
  interval_cases n <;> simp [tail8, absorb_bytes, add_word_succ, shift]

theorem block8Big_eq : block8Big mem k r = absorb .big r (bytes mem k 12) := by
  simp [block8Big, absorb_bytes, word_succ, shift, ← UInt32.add_assoc]

theorem tail8Big_spec (hn : n ≤ 12) : tail8Big mem k n r =
    if n = 0 then none else some (absorb .big r (bytes mem k n)) := by
  interval_cases n <;> simp [tail8Big, absorb_bytes, add_word_succ, shift]

-- ---------------------------------------------------------------------------
-- Two and four bytes at a time
-- ---------------------------------------------------------------------------

theorem load16_eq (ho : m.byteOrder = .little) :
    m.load16 mem k = word .little (bytes mem k 2) := by
  simp [Machine.load16, ho, word_succ, shift]

theorem load32_eq : m.load32 mem k = word m.byteOrder (bytes mem k 4) := by
  unfold Machine.load32
  cases m.byteOrder <;> simp [word_succ, shift]

theorem shiftLeft_add (x y : UInt32) : (x + y) <<< 16 = (x <<< 16) + (y <<< 16) := by
  apply UInt32.toNat_inj.mp
  simp [Nat.shiftLeft_eq, Nat.add_mul]

theorem shiftLeft_shiftLeft (x : UInt32) : (x <<< 8) <<< 16 = x <<< 24 := by
  apply UInt32.toNat_inj.mp
  simp [Nat.shiftLeft_eq, Nat.mul_assoc]

theorem halves_eq (ho : m.byteOrder = .little) :
    halves m mem k = word .little (bytes mem k 4) := by
  simp [halves, Machine.load16, ho, word_succ, shift, shiftLeft_add, shiftLeft_shiftLeft,
    ← UInt32.add_assoc]

theorem tail16_spec (ho : m.byteOrder = .little) (hn : n ≤ 12) : tail16 m mem k n r =
    if n = 0 then none else some (absorb .little r (bytes mem k n)) := by
  interval_cases n <;>
    simp [tail16, block16, absorb_bytes, halves_eq ho, load16_eq ho, add_word_succ, shift]

theorem word_and_little :
    word .little (bytes mem k 4) &&& 0xffffff = word .little (bytes mem k 3) ∧
      word .little (bytes mem k 4) &&& 0xffff = word .little (bytes mem k 2) ∧
      word .little (bytes mem k 4) &&& 0xff = word .little (bytes mem k 1) := by
  have h₀ := (mem k).toNat_lt
  have h₁ := (mem (k + 1)).toNat_lt
  have h₂ := (mem (k + 2)).toNat_lt
  have h₃ := (mem (k + 3)).toNat_lt
  have hand := Nat.and_two_pow_sub_one_eq_mod
  refine ⟨?_, ?_, ?_⟩ <;> apply UInt32.toNat_inj.mp
  · simp [word_succ, shift, load8, Nat.shiftLeft_eq, hand _ 24]
    omega
  · simp [word_succ, shift, load8, Nat.shiftLeft_eq, hand _ 16]
    omega
  · simp [word_succ, shift, load8, Nat.shiftLeft_eq, hand _ 8]
    omega

theorem and_high (x : UInt32) : x &&& (0xffffff00 : UInt32) = (x >>> 8) <<< 8 ∧
    x &&& (0xffff0000 : UInt32) = (x >>> 16) <<< 16 ∧
    x &&& (0xff000000 : UInt32) = (x >>> 24) <<< 24 := by
  refine ⟨?_, ?_, ?_⟩ <;> rw [← UInt32.toBitVec_inj] <;>
    refine BitVec.eq_of_getLsbD_eq fun i hi => ?_ <;> simp <;> interval_cases i <;> simp

theorem word_and_big :
    word .big (bytes mem k 4) &&& 0xffffff00 = word .big (bytes mem k 3) ∧
      word .big (bytes mem k 4) &&& 0xffff0000 = word .big (bytes mem k 2) ∧
      word .big (bytes mem k 4) &&& 0xff000000 = word .big (bytes mem k 1) := by
  have h₀ := (mem k).toNat_lt
  have h₁ := (mem (k + 1)).toNat_lt
  have h₂ := (mem (k + 2)).toNat_lt
  have h₃ := (mem (k + 3)).toNat_lt
  obtain ⟨h8, h16, h24⟩ := and_high (word .big (bytes mem k 4))
  rw [h8, h16, h24]
  refine ⟨?_, ?_, ?_⟩ <;> apply UInt32.toNat_inj.mp <;>
    simp [word_succ, shift, load8, Nat.shiftLeft_eq, Nat.shiftRight_eq_div_pow] <;>
    omega

theorem block32_eq : block32 m mem k r = absorb m.byteOrder r (bytes mem k 12) := by
  simp [block32, absorb_bytes, load32_eq]

theorem tail32_spec (ho : m.byteOrder = .little) (hn : n ≤ 12) : tail32 m mem k n r =
    if n = 0 then none else some (absorb .little r (bytes mem k n)) := by
  interval_cases n <;> simp [tail32, block32, absorb_bytes, load32_eq, ho, word_and_little]

theorem tail32Big_spec (ho : m.byteOrder = .big) (hn : n ≤ 12) : tail32Big m mem k n r =
    if n = 0 then none else some (absorb .big r (bytes mem k n)) := by
  interval_cases n <;> simp [tail32Big, block32, absorb_bytes, load32_eq, ho, word_and_big]

theorem tailWord_spec (hn : n ≤ 3) : tailWord m mem k n r =
    if n = 0 then none else some (absorb m.byteOrder r (bytes mem k (n * 4))) := by
  interval_cases n <;> simp [tailWord, absorb_bytes, load32_eq]

-- ---------------------------------------------------------------------------
-- The whole key
-- ---------------------------------------------------------------------------

theorem block16_eq (ho : m.byteOrder = .little) :
    block16 m mem k r = absorb .little r (bytes mem k 12) := by
  simp [block16, absorb_bytes, halves_eq ho]

/-- A path through the key that reads it block by block hashes its bytes. -/
theorem finish_loop {block : Nat → Regs → Regs} {tail : Nat → Nat → Regs → Option Regs}
    (most size : Nat) [NeZero most] (hsize : most * size = 12)
    (hblock : ∀ k r, block k r = absorb o r (bytes mem k 12))
    (htail : ∀ k n r, n ≤ most → tail k n r =
      if n = 0 then none else some (absorb o r (bytes mem k (n * size)))) :
    finish tail (loop block most k n r) = (lookup3 o).run r (bytes mem k (n * size)) := by
  have hpos : 0 < size := Nat.pos_of_ne_zero (by rintro rfl; omega)
  induction hn : n using Nat.strong_induction_on generalizing k n r with
  | _ l ih =>
    subst hn
    rw [loop]
    split
    · rename_i hlong
      have hblocklen : (bytes mem k 12).length = (lookup3 o).size := length_bytes
      obtain ⟨rest, rfl⟩ := Nat.exists_eq_add_of_lt hlong
      have hrest : finish tail (loop block most (k + 12) (rest + 1) (mix (block k r))) = _ :=
        ih (rest + 1) (by have := NeZero.ne most; omega) rfl
      rw [Nat.add_assoc, Nat.add_sub_cancel_left, hrest, Nat.add_mul most, hsize, bytes_add,
        (lookup3 o).run_block hblocklen, hblock]
      · rfl
      · rw [Ne, bytes_eq_nil]
        exact (Nat.mul_pos rest.succ_pos hpos).ne'
    · rename_i hshort
      have hle := Nat.le_of_not_lt hshort
      rw [finish, htail k n r hle]
      cases n with
      | zero => simp [bytes, BlockHash.run_nil]
      | succ n =>
        have hne : bytes mem k ((n + 1) * size) ≠ [] := by
          rw [Ne, bytes_eq_nil]
          exact (Nat.mul_pos n.succ_pos hpos).ne'
        have hlen : (bytes mem k ((n + 1) * size)).length ≤ 12 := by
          rw [length_bytes, ← hsize]
          exact Nat.mul_le_mul_right size hle
        rw [(lookup3 o).run_last hne hlen]
        rfl

theorem finish_bytes {block : Nat → Regs → Regs} {tail : Nat → Nat → Regs → Option Regs}
    (hblock : ∀ k r, block k r = absorb o r (bytes mem k 12))
    (htail : ∀ k n r, n ≤ 12 → tail k n r =
      if n = 0 then none else some (absorb o r (bytes mem k n))) :
    finish tail (loop block 12 k n r) = (lookup3 o).run r (bytes mem k n) := by
  have hrun := @finish_loop mem o r k n block tail 12 1 _ rfl hblock (by simpa using htail)
  rwa [Nat.mul_one] at hrun

theorem byteOrder_of_little (h : m.hashLittleEndian) : m.byteOrder = .little := by
  simp [Machine.hashLittleEndian] at h
  exact h.2

theorem byteOrder_of_big (h : m.hashBigEndian) : m.byteOrder = .big := by
  simp [Machine.hashBigEndian] at h
  exact h.2

/-- The three ways through a key come to the same. -/
theorem hashlittleRegs_eq (m : Machine) (mem : Memory) (key length : Nat) (r : Regs) :
    hashlittleRegs m mem key length r = (lookup3 .little).run r (bytes mem key length) := by
  rw [hashlittleRegs]
  split
  · rename_i h
    have ho := byteOrder_of_little h.1
    exact finish_bytes (fun k r => ho ▸ block32_eq) fun k n r hn => tail32_spec ho hn
  · split
    · rename_i h
      have ho := byteOrder_of_little h.1
      exact finish_bytes (fun k r => block16_eq ho) fun k n r hn => tail16_spec ho hn
    · exact finish_bytes (fun k r => block8_eq) fun k n r hn => tail8_spec hn

theorem hashbigRegs_eq (m : Machine) (mem : Memory) (key length : Nat) (r : Regs) :
    hashbigRegs m mem key length r = (lookup3 .big).run r (bytes mem key length) := by
  rw [hashbigRegs]
  split
  · rename_i h
    have ho := byteOrder_of_big h.1
    exact finish_bytes (fun k r => ho ▸ block32_eq) fun k n r hn => tail32Big_spec ho hn
  · exact finish_bytes (fun k r => block8Big_eq) fun k n r hn => tail8Big_spec hn

theorem hashwordRegs_eq (m : Machine) (mem : Memory) (k length : Nat) (r : Regs) :
    hashwordRegs m mem k length r = (lookup3 m.byteOrder).run r (bytes mem k (length * 4)) :=
  finish_loop 3 4 rfl (fun _ _ => block32_eq) fun _ _ _ hn => tailWord_spec hn

end TextMining.JenkinsHash
