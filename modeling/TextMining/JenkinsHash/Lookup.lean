import Mathlib.Algebra.GroupWithZero.Nat

/-!
# The hash of lookup3

`lookup.cpp` hashes a key of any length into 32 bits, twelve bytes at a time. How
it reads the key depends on the machine, on what the macros of `lookup.h` guess of
it, and on the address of the key.
-/

namespace TextMining.JenkinsHash

inductive ByteOrder where
  | little
  | big
deriving DecidableEq

/-- `guessed` is false where the macros know neither byte order. -/
structure Machine where
  byteOrder : ByteOrder
  guessed : Bool

def Machine.hashLittleEndian (m : Machine) : Bool :=
  m.guessed && decide (m.byteOrder = .little)

def Machine.hashBigEndian (m : Machine) : Bool :=
  m.guessed && decide (m.byteOrder = .big)

abbrev Memory := Nat → UInt8

def load8 (mem : Memory) (p : Nat) : UInt32 := (mem p).toUInt32

def Machine.load16 (m : Machine) (mem : Memory) (p : Nat) : UInt32 :=
  match m.byteOrder with
  | .little => load8 mem p + (load8 mem (p + 1) <<< 8)
  | .big => (load8 mem p <<< 8) + load8 mem (p + 1)

def Machine.load32 (m : Machine) (mem : Memory) (p : Nat) : UInt32 :=
  match m.byteOrder with
  | .little => load8 mem p + (load8 mem (p + 1) <<< 8) + (load8 mem (p + 2) <<< 16) +
      (load8 mem (p + 3) <<< 24)
  | .big => (load8 mem p <<< 24) + (load8 mem (p + 1) <<< 16) + (load8 mem (p + 2) <<< 8) +
      load8 mem (p + 3)

-- ---------------------------------------------------------------------------
-- Mixing
-- ---------------------------------------------------------------------------

structure Regs where
  a : UInt32
  b : UInt32
  c : UInt32
deriving DecidableEq

def rot (x k : UInt32) : UInt32 := (x <<< k) ||| (x >>> (32 - k))

/-- A line of `mix`: `x -= z;  x ^= rot(z, k);  z += y;` -/
def mixLine (k x y z : UInt32) : UInt32 × UInt32 :=
  ((x - z) ^^^ rot z k, z + y)

def mixA (k : UInt32) (r : Regs) : Regs :=
  ⟨(mixLine k r.a r.b r.c).1, r.b, (mixLine k r.a r.b r.c).2⟩

def mixB (k : UInt32) (r : Regs) : Regs :=
  ⟨(mixLine k r.b r.c r.a).2, (mixLine k r.b r.c r.a).1, r.c⟩

def mixC (k : UInt32) (r : Regs) : Regs :=
  ⟨r.a, (mixLine k r.c r.a r.b).2, (mixLine k r.c r.a r.b).1⟩

def mix (r : Regs) : Regs :=
  r |> mixA 4 |> mixB 6 |> mixC 8 |> mixA 16 |> mixB 19 |> mixC 4

/-- A line of `final`: `x ^= y; x -= rot(y, k);` -/
def finalLine (k x y : UInt32) : UInt32 := (x ^^^ y) - rot y k

def finalA (k : UInt32) (r : Regs) : Regs := { r with a := finalLine k r.a r.c }

def finalB (k : UInt32) (r : Regs) : Regs := { r with b := finalLine k r.b r.a }

def finalC (k : UInt32) (r : Regs) : Regs := { r with c := finalLine k r.c r.b }

def final (r : Regs) : Regs :=
  r |> finalC 14 |> finalA 11 |> finalB 25 |> finalC 16 |> finalA 4 |> finalB 14 |> finalC 24

-- ---------------------------------------------------------------------------
-- The loop over all but the last block
-- ---------------------------------------------------------------------------

/-- `while (length > most)`, where a block of `most` items takes twelve bytes. -/
def loop (block : Nat → Regs → Regs) (most : Nat) [NeZero most] (k length : Nat) (r : Regs) :
    Nat × Nat × Regs :=
  if most < length then loop block most (k + 12) (length - most) (mix (block k r))
  else (k, length, r)
termination_by length
decreasing_by
  have := NeZero.ne most
  omega

/-- The hash of what is left: `case 0` returns at once, every other case breaks. -/
def finish (tail : Nat → Nat → Regs → Option Regs) (left : Nat × Nat × Regs) : Regs :=
  match tail left.1 left.2.1 left.2.2 with
  | none => left.2.2
  | some r => final r

-- ---------------------------------------------------------------------------
-- hashlittle
-- ---------------------------------------------------------------------------

def block32 (m : Machine) (mem : Memory) (k : Nat) (r : Regs) : Regs :=
  ⟨r.a + m.load32 mem k, r.b + m.load32 mem (k + 4), r.c + m.load32 mem (k + 8)⟩

def tail32 (m : Machine) (mem : Memory) (k : Nat) : Nat → Regs → Option Regs
  | 12, r => some (block32 m mem k r)
  | 11, r => some ⟨r.a + m.load32 mem k, r.b + m.load32 mem (k + 4),
      r.c + (m.load32 mem (k + 8) &&& 0xffffff)⟩
  | 10, r => some ⟨r.a + m.load32 mem k, r.b + m.load32 mem (k + 4),
      r.c + (m.load32 mem (k + 8) &&& 0xffff)⟩
  | 9, r => some ⟨r.a + m.load32 mem k, r.b + m.load32 mem (k + 4),
      r.c + (m.load32 mem (k + 8) &&& 0xff)⟩
  | 8, r => some ⟨r.a + m.load32 mem k, r.b + m.load32 mem (k + 4), r.c⟩
  | 7, r => some ⟨r.a + m.load32 mem k, r.b + (m.load32 mem (k + 4) &&& 0xffffff), r.c⟩
  | 6, r => some ⟨r.a + m.load32 mem k, r.b + (m.load32 mem (k + 4) &&& 0xffff), r.c⟩
  | 5, r => some ⟨r.a + m.load32 mem k, r.b + (m.load32 mem (k + 4) &&& 0xff), r.c⟩
  | 4, r => some ⟨r.a + m.load32 mem k, r.b, r.c⟩
  | 3, r => some ⟨r.a + (m.load32 mem k &&& 0xffffff), r.b, r.c⟩
  | 2, r => some ⟨r.a + (m.load32 mem k &&& 0xffff), r.b, r.c⟩
  | 1, r => some ⟨r.a + (m.load32 mem k &&& 0xff), r.b, r.c⟩
  | 0, _ => none
  | _, r => some r

/-- Two halves of a register, `k[0] + (((uint32_t)k[1])<<16)`. -/
def halves (m : Machine) (mem : Memory) (p : Nat) : UInt32 :=
  m.load16 mem p + (m.load16 mem (p + 2) <<< 16)

def block16 (m : Machine) (mem : Memory) (k : Nat) (r : Regs) : Regs :=
  ⟨r.a + halves m mem k, r.b + halves m mem (k + 4), r.c + halves m mem (k + 8)⟩

def tail16 (m : Machine) (mem : Memory) (k : Nat) : Nat → Regs → Option Regs
  | 12, r => some (block16 m mem k r)
  -- falls through to 10, which reads the register's other half
  | 11, r => some ⟨r.a + halves m mem k, r.b + halves m mem (k + 4),
      r.c + (load8 mem (k + 10) <<< 16) + m.load16 mem (k + 8)⟩
  | 10, r => some ⟨r.a + halves m mem k, r.b + halves m mem (k + 4), r.c + m.load16 mem (k + 8)⟩
  | 9, r => some ⟨r.a + halves m mem k, r.b + halves m mem (k + 4), r.c + load8 mem (k + 8)⟩
  | 8, r => some ⟨r.a + halves m mem k, r.b + halves m mem (k + 4), r.c⟩
  | 7, r => some ⟨r.a + halves m mem k,
      r.b + (load8 mem (k + 6) <<< 16) + m.load16 mem (k + 4), r.c⟩
  | 6, r => some ⟨r.a + halves m mem k, r.b + m.load16 mem (k + 4), r.c⟩
  | 5, r => some ⟨r.a + halves m mem k, r.b + load8 mem (k + 4), r.c⟩
  | 4, r => some ⟨r.a + halves m mem k, r.b, r.c⟩
  | 3, r => some ⟨r.a + (load8 mem (k + 2) <<< 16) + m.load16 mem k, r.b, r.c⟩
  | 2, r => some ⟨r.a + m.load16 mem k, r.b, r.c⟩
  | 1, r => some ⟨r.a + load8 mem k, r.b, r.c⟩
  | 0, _ => none
  | _, r => some r

def block8 (mem : Memory) (k : Nat) (r : Regs) : Regs where
  a := r.a + load8 mem k + (load8 mem (k + 1) <<< 8) + (load8 mem (k + 2) <<< 16) +
    (load8 mem (k + 3) <<< 24)
  b := r.b + load8 mem (k + 4) + (load8 mem (k + 5) <<< 8) + (load8 mem (k + 6) <<< 16) +
    (load8 mem (k + 7) <<< 24)
  c := r.c + load8 mem (k + 8) + (load8 mem (k + 9) <<< 8) + (load8 mem (k + 10) <<< 16) +
    (load8 mem (k + 11) <<< 24)

/-- Every case falls through to the next one. -/
def tail8 (mem : Memory) (k : Nat) : Nat → Regs → Option Regs
  | 12, r => tail8 mem k 11 { r with c := r.c + (load8 mem (k + 11) <<< 24) }
  | 11, r => tail8 mem k 10 { r with c := r.c + (load8 mem (k + 10) <<< 16) }
  | 10, r => tail8 mem k 9 { r with c := r.c + (load8 mem (k + 9) <<< 8) }
  | 9, r => tail8 mem k 8 { r with c := r.c + load8 mem (k + 8) }
  | 8, r => tail8 mem k 7 { r with b := r.b + (load8 mem (k + 7) <<< 24) }
  | 7, r => tail8 mem k 6 { r with b := r.b + (load8 mem (k + 6) <<< 16) }
  | 6, r => tail8 mem k 5 { r with b := r.b + (load8 mem (k + 5) <<< 8) }
  | 5, r => tail8 mem k 4 { r with b := r.b + load8 mem (k + 4) }
  | 4, r => tail8 mem k 3 { r with a := r.a + (load8 mem (k + 3) <<< 24) }
  | 3, r => tail8 mem k 2 { r with a := r.a + (load8 mem (k + 2) <<< 16) }
  | 2, r => tail8 mem k 1 { r with a := r.a + (load8 mem (k + 1) <<< 8) }
  | 1, r => some { r with a := r.a + load8 mem k }
  | 0, _ => none
  | _, r => some r

def hashlittleRegs (m : Machine) (mem : Memory) (key length : Nat) (r : Regs) : Regs :=
  if m.hashLittleEndian ∧ key &&& 0x3 = 0 then
    finish (tail32 m mem) (loop (block32 m mem) 12 key length r)
  else if m.hashLittleEndian ∧ key &&& 0x1 = 0 then
    finish (tail16 m mem) (loop (block16 m mem) 12 key length r)
  else finish (tail8 mem) (loop (block8 mem) 12 key length r)

def hashlittle (m : Machine) (mem : Memory) (key length : Nat) (initval : UInt32) : UInt32 :=
  let init : UInt32 := 0xdeadbeef + length.toUInt32 + initval
  (hashlittleRegs m mem key length ⟨init, init, init⟩).c

def hashlittle2 (m : Machine) (mem : Memory) (key length : Nat) (pc pb : UInt32) :
    UInt32 × UInt32 :=
  let init : UInt32 := 0xdeadbeef + length.toUInt32 + pc
  let r := hashlittleRegs m mem key length ⟨init, init, init + pb⟩
  (r.c, r.b)

-- ---------------------------------------------------------------------------
-- hashbig
-- ---------------------------------------------------------------------------

def tail32Big (m : Machine) (mem : Memory) (k : Nat) : Nat → Regs → Option Regs
  | 12, r => some (block32 m mem k r)
  | 11, r => some ⟨r.a + m.load32 mem k, r.b + m.load32 mem (k + 4),
      r.c + (m.load32 mem (k + 8) &&& 0xffffff00)⟩
  | 10, r => some ⟨r.a + m.load32 mem k, r.b + m.load32 mem (k + 4),
      r.c + (m.load32 mem (k + 8) &&& 0xffff0000)⟩
  | 9, r => some ⟨r.a + m.load32 mem k, r.b + m.load32 mem (k + 4),
      r.c + (m.load32 mem (k + 8) &&& 0xff000000)⟩
  | 8, r => some ⟨r.a + m.load32 mem k, r.b + m.load32 mem (k + 4), r.c⟩
  | 7, r => some ⟨r.a + m.load32 mem k, r.b + (m.load32 mem (k + 4) &&& 0xffffff00), r.c⟩
  | 6, r => some ⟨r.a + m.load32 mem k, r.b + (m.load32 mem (k + 4) &&& 0xffff0000), r.c⟩
  | 5, r => some ⟨r.a + m.load32 mem k, r.b + (m.load32 mem (k + 4) &&& 0xff000000), r.c⟩
  | 4, r => some ⟨r.a + m.load32 mem k, r.b, r.c⟩
  | 3, r => some ⟨r.a + (m.load32 mem k &&& 0xffffff00), r.b, r.c⟩
  | 2, r => some ⟨r.a + (m.load32 mem k &&& 0xffff0000), r.b, r.c⟩
  | 1, r => some ⟨r.a + (m.load32 mem k &&& 0xff000000), r.b, r.c⟩
  | 0, _ => none
  | _, r => some r

def block8Big (mem : Memory) (k : Nat) (r : Regs) : Regs where
  a := r.a + (load8 mem k <<< 24) + (load8 mem (k + 1) <<< 16) + (load8 mem (k + 2) <<< 8) +
    load8 mem (k + 3)
  b := r.b + (load8 mem (k + 4) <<< 24) + (load8 mem (k + 5) <<< 16) +
    (load8 mem (k + 6) <<< 8) + load8 mem (k + 7)
  c := r.c + (load8 mem (k + 8) <<< 24) + (load8 mem (k + 9) <<< 16) +
    (load8 mem (k + 10) <<< 8) + load8 mem (k + 11)

def tail8Big (mem : Memory) (k : Nat) : Nat → Regs → Option Regs
  | 12, r => tail8Big mem k 11 { r with c := r.c + load8 mem (k + 11) }
  | 11, r => tail8Big mem k 10 { r with c := r.c + (load8 mem (k + 10) <<< 8) }
  | 10, r => tail8Big mem k 9 { r with c := r.c + (load8 mem (k + 9) <<< 16) }
  | 9, r => tail8Big mem k 8 { r with c := r.c + (load8 mem (k + 8) <<< 24) }
  | 8, r => tail8Big mem k 7 { r with b := r.b + load8 mem (k + 7) }
  | 7, r => tail8Big mem k 6 { r with b := r.b + (load8 mem (k + 6) <<< 8) }
  | 6, r => tail8Big mem k 5 { r with b := r.b + (load8 mem (k + 5) <<< 16) }
  | 5, r => tail8Big mem k 4 { r with b := r.b + (load8 mem (k + 4) <<< 24) }
  | 4, r => tail8Big mem k 3 { r with a := r.a + load8 mem (k + 3) }
  | 3, r => tail8Big mem k 2 { r with a := r.a + (load8 mem (k + 2) <<< 8) }
  | 2, r => tail8Big mem k 1 { r with a := r.a + (load8 mem (k + 1) <<< 16) }
  | 1, r => some { r with a := r.a + (load8 mem k <<< 24) }
  | 0, _ => none
  | _, r => some r

def hashbigRegs (m : Machine) (mem : Memory) (key length : Nat) (r : Regs) : Regs :=
  if m.hashBigEndian ∧ key &&& 0x3 = 0 then
    finish (tail32Big m mem) (loop (block32 m mem) 12 key length r)
  else finish (tail8Big mem) (loop (block8Big mem) 12 key length r)

def hashbig (m : Machine) (mem : Memory) (key length : Nat) (initval : UInt32) : UInt32 :=
  let init : UInt32 := 0xdeadbeef + length.toUInt32 + initval
  (hashbigRegs m mem key length ⟨init, init, init⟩).c

-- ---------------------------------------------------------------------------
-- hashword
-- ---------------------------------------------------------------------------

/-- Every case falls through to the next one; `k` is an address, `k[i]` a word. -/
def tailWord (m : Machine) (mem : Memory) (k : Nat) : Nat → Regs → Option Regs
  | 3, r => tailWord m mem k 2 { r with c := r.c + m.load32 mem (k + 8) }
  | 2, r => tailWord m mem k 1 { r with b := r.b + m.load32 mem (k + 4) }
  | 1, r => some { r with a := r.a + m.load32 mem k }
  | 0, _ => none
  | _, r => some r

def hashwordRegs (m : Machine) (mem : Memory) (k length : Nat) (r : Regs) : Regs :=
  finish (tailWord m mem) (loop (block32 m mem) 3 k length r)

def hashword (m : Machine) (mem : Memory) (k length : Nat) (initval : UInt32) : UInt32 :=
  let init : UInt32 := 0xdeadbeef + (length.toUInt32 <<< (2 : UInt32)) + initval
  (hashwordRegs m mem k length ⟨init, init, init⟩).c

def hashword2 (m : Machine) (mem : Memory) (k length : Nat) (pc pb : UInt32) :
    UInt32 × UInt32 :=
  let init : UInt32 := 0xdeadbeef + (length <<< (2 : Nat)).toUInt32 + pc
  let r := hashwordRegs m mem k length ⟨init, init, init + pb⟩
  (r.c, r.b)

end TextMining.JenkinsHash
