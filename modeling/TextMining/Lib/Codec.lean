import TextMining.Lib.Bytes
import Mathlib.Data.Nat.Digits.Defs
import Mathlib.Data.Nat.Digits.Lemmas
import Mathlib.Data.List.TakeWhile

/-!
# Numbers as bytes

The 32-bit little-endian form that `fwrite` and `fread` use, the lines of a
text file, and decimal text as `printf` writes and streams read it.
-/

namespace TextMining

-- ---------------------------------------------------------------------------
-- Items
-- ---------------------------------------------------------------------------

/-- `fread` of one item of `n` bytes: the item and the bytes after it. -/
def readItem (n : Nat) (bytes : List UInt8) : Option (List UInt8 × List UInt8) :=
  if n ≤ bytes.length then some (bytes.take n, bytes.drop n) else none

theorem readItem_append {n : Nat} {item : List UInt8} (h : item.length = n) (rest : List UInt8) :
    readItem n (item ++ rest) = some (item, rest) := by
  subst h
  simp [readItem]

def writeU32 (n : UInt32) : List UInt8 :=
  [UInt8.ofNat (n.toNat % 256), UInt8.ofNat (n.toNat / 256 % 256),
    UInt8.ofNat (n.toNat / 65536 % 256), UInt8.ofNat (n.toNat / 16777216 % 256)]

def readU32 : List UInt8 → Option (UInt32 × List UInt8)
  | a :: b :: c :: d :: rest =>
    some (UInt32.ofNat (a.toNat + 256 * b.toNat + 65536 * c.toNat + 16777216 * d.toNat), rest)
  | _ => none

theorem readU32_rest {bytes rest : List UInt8} {n : UInt32} (h : readU32 bytes = some (n, rest)) :
    rest = bytes.drop 4 := by
  unfold readU32 at h
  split at h
  · simp only [Option.some.injEq, Prod.mk.injEq] at h
    exact h.2.symm
  · cases h

theorem readItem_rest {n : Nat} {bytes item rest : List UInt8}
    (h : readItem n bytes = some (item, rest)) : rest = bytes.drop n := by
  unfold readItem at h
  split at h
  · simp only [Option.some.injEq, Prod.mk.injEq] at h
    exact h.2.symm
  · cases h

@[simp] theorem length_writeU32 (n : UInt32) : (writeU32 n).length = 4 := rfl

theorem readU32_write (n : UInt32) (rest : List UInt8) :
    readU32 (writeU32 n ++ rest) = some (n, rest) := by
  have hbyte : ∀ k : Nat, (UInt8.ofNat (k % 256)).toNat = k % 256 := fun k => by simp
  have hn := n.toNat_lt
  simp only [writeU32, readU32, List.cons_append, List.nil_append, hbyte]
  refine congrArg (fun m => some (m, rest)) (UInt32.toNat_inj.mp ?_)
  simp only [UInt32.toNat_ofNat']
  omega

def writeI32 (n : Int32) : List UInt8 := writeU32 n.toUInt32

def readI32 (bytes : List UInt8) : Option (Int32 × List UInt8) :=
  (readU32 bytes).map fun r => (r.1.toInt32, r.2)

theorem readI32_write (n : Int32) (rest : List UInt8) :
    readI32 (writeI32 n ++ rest) = some (n, rest) := by
  rw [readI32, writeI32, readU32_write, Option.map_some, Int32.toInt32_toUInt32]

-- ---------------------------------------------------------------------------
-- Lines
-- ---------------------------------------------------------------------------

/-- The first line, its newline included, of at most `n` bytes. -/
def takeLine : Nat → List UInt8 → List UInt8
  | 0, _ => []
  | _, [] => []
  | n + 1, b :: bytes => if b = 10 then [b] else b :: takeLine n bytes

/-- `fgets(buf, n, file)`: the C string in `buf` and the bytes after the line.
At the end of the file `buf` keeps its string. -/
def fgets (n : Nat) (buf file : List UInt8) : List UInt8 × List UInt8 :=
  if file = [] then (buf, []) else
    let line := takeLine (n - 1) file
    (cstr line, file.drop line.length)

theorem takeLine_append {n : Nat} {line : List UInt8} (h : 10 ∉ line) (hn : line.length < n)
    (rest : List UInt8) : takeLine n (line ++ 10 :: rest) = line ++ [10] := by
  induction line generalizing n with
  | nil =>
    cases n with
    | zero => exact absurd hn (Nat.not_lt_zero _)
    | succ n => rfl
  | cons b line ih =>
    cases n with
    | zero => exact absurd hn (Nat.not_lt_zero _)
    | succ n =>
      obtain ⟨hb, hline⟩ := not_or.mp (mt List.mem_cons.mpr h)
      simp only [List.cons_append, takeLine, if_neg (Ne.symm hb)]
      rw [ih hline (Nat.lt_of_succ_lt_succ hn)]

theorem takeLine_of_not_mem {n : Nat} {line : List UInt8} (h : 10 ∉ line) (hn : line.length ≤ n) :
    takeLine n line = line := by
  induction line generalizing n with
  | nil => cases n <;> rfl
  | cons b line ih =>
    cases n with
    | zero => exact absurd hn (Nat.not_succ_le_zero _)
    | succ n =>
      obtain ⟨hb, hline⟩ := not_or.mp (mt List.mem_cons.mpr h)
      simp only [takeLine, if_neg (Ne.symm hb)]
      rw [ih hline (Nat.le_of_succ_le_succ hn)]

theorem fgets_append {n : Nat} {line : List UInt8} (h : 10 ∉ line) (hz : 0 ∉ line)
    (hn : line.length + 1 < n) (buf rest : List UInt8) :
    fgets n buf (line ++ 10 :: rest) = (line ++ [10], rest) := by
  have hline := takeLine_append h (show line.length < n - 1 by omega) rest
  have hc : cstr (line ++ [10]) = line ++ [10] := cstr_of_ne_zero fun b hb he => by
    subst he
    simp [hz] at hb
  simp [fgets, hline, hc]

theorem fgets_last {n : Nat} {line : List UInt8} (h : 10 ∉ line) (hz : 0 ∉ line)
    (hne : line ≠ []) (hn : line.length < n) (buf : List UInt8) :
    fgets n buf line = (line, []) := by
  have hline := takeLine_of_not_mem h (show line.length ≤ n - 1 by omega)
  have hc : cstr line = line := cstr_of_ne_zero fun b hb he => hz (he ▸ hb)
  simp [fgets, hne, hline, hc]

-- ---------------------------------------------------------------------------
-- Decimal text
-- ---------------------------------------------------------------------------

def decimal (n : Nat) : List UInt8 :=
  if n = 0 then [48] else (Nat.digits 10 n).reverse.map fun d => UInt8.ofNat (48 + d)

def isDigit (b : UInt8) : Bool := 48 ≤ b && b ≤ 57

def isSpace (b : UInt8) : Bool := b = 32 || (9 ≤ b && b ≤ 13)

def digitsValue (text : List UInt8) : Nat :=
  text.foldl (fun n b => 10 * n + (b.toNat - 48)) 0

/-- `stream >> t` for an unsigned `t` below `2 ^ width`; a read that fails
leaves `t` as it was. -/
def readDecimal (width unset : Nat) (text : List UInt8) : Nat :=
  let text := text.dropWhile isSpace
  let negative := text.head? = some 45
  let text := if negative ∨ text.head? = some 43 then text.tail else text
  let digits := text.takeWhile isDigit
  let value := digitsValue digits
  if digits = [] ∨ 2 ^ width ≤ value then unset
  else if negative then (2 ^ width - value) % 2 ^ width else value

/-- `stream >> t` for an `int`; the answer is `none` when the read fails. -/
def readInt (text : List UInt8) : Option Int32 :=
  let text := text.dropWhile isSpace
  let negative := text.head? = some 45
  let text := if negative ∨ text.head? = some 43 then text.tail else text
  let digits := text.takeWhile isDigit
  let value : Int := if negative then -(digitsValue digits : Int) else digitsValue digits
  if digits = [] ∨ value < -2 ^ 31 ∨ 2 ^ 31 ≤ value then none else some (Int32.ofInt value)

/-- `stream >> t` for a signed `t` of `width` bits. -/
def readSigned (width : Nat) (text : List UInt8) : Option Int :=
  let text := text.dropWhile isSpace
  let negative := text.head? = some 45
  let text := if negative ∨ text.head? = some 43 then text.tail else text
  let digits := text.takeWhile isDigit
  let value : Int := if negative then -(digitsValue digits : Int) else digitsValue digits
  if digits = [] ∨ value < -2 ^ (width - 1) ∨ 2 ^ (width - 1) ≤ value then none else some value

def readLong (text : List UInt8) : Option Int64 := (readSigned 64 text).map Int64.ofInt

def decimalInt (n : Int) : List UInt8 :=
  if n < 0 then 45 :: decimal n.natAbs else decimal n.natAbs

/-- `atoi`, with an `int` and a `long` of 32 bits. -/
def atoi (text : List UInt8) : Int :=
  let text := text.dropWhile isSpace
  let negative := text.head? = some 45
  let text := if negative ∨ text.head? = some 43 then text.tail else text
  let value := digitsValue (text.takeWhile isDigit)
  if negative then max (-(value : Int)) (-2 ^ 31) else min value (2 ^ 31 - 1)

theorem digit_toNat {d : Nat} (h : d < 10) : (UInt8.ofNat (48 + d)).toNat = 48 + d := by
  simp only [UInt8.toNat_ofNat']
  omega

theorem isDigit_of_lt {d : Nat} (h : d < 10) : isDigit (UInt8.ofNat (48 + d)) = true := by
  simp only [isDigit, Bool.and_eq_true, decide_eq_true_eq, UInt8.le_iff_toNat_le, digit_toNat h]
  constructor
  · exact Nat.le_add_right 48 d
  · show 48 + d ≤ 57
    omega

theorem not_space_of_isDigit {b : UInt8} (h : isDigit b = true) :
    isSpace b = false ∧ b ≠ 45 ∧ b ≠ 43 := by
  obtain ⟨hlo, -⟩ : (48 : UInt8).toNat ≤ b.toNat ∧ b.toNat ≤ (57 : UInt8).toNat := by
    simpa [isDigit, UInt8.le_iff_toNat_le] using h
  have hne : ∀ c : UInt8, c.toNat < 48 → b ≠ c := fun c hc he => by
    subst he
    exact absurd hlo (Nat.not_le.mpr hc)
  have h13 : ¬ b ≤ 13 := fun hb => by
    have hb' : b.toNat ≤ 13 := UInt8.le_iff_toNat_le.mp hb
    exact absurd (hlo.trans hb') (by decide)
  exact ⟨by simp [isSpace, hne 32 (by decide), h13], hne 45 (by decide), hne 43 (by decide)⟩

theorem decimal_ne_nil (n : Nat) : decimal n ≠ [] := by
  unfold decimal
  split
  · exact List.cons_ne_nil _ _
  · rename_i hn
    simpa [Nat.digits_ne_nil_iff_ne_zero] using hn

theorem isDigit_decimal (n : Nat) : ∀ b ∈ decimal n, isDigit b = true := by
  unfold decimal
  split
  · intro b hb
    obtain rfl := List.mem_singleton.mp hb
    rfl
  · intro b hb
    obtain ⟨d, hd, rfl⟩ := List.mem_map.mp hb
    exact isDigit_of_lt (Nat.digits_lt_base (by decide) (List.mem_reverse.mp hd))

theorem digitsValue_reverse {ds : List Nat} (h : ∀ d ∈ ds, d < 10) :
    digitsValue (ds.reverse.map fun d => UInt8.ofNat (48 + d)) = Nat.ofDigits 10 ds := by
  induction ds with
  | nil => rfl
  | cons d ds ih =>
    have hd : d < 10 := h d (by simp)
    have hds := ih fun x hx => h x (by simp [hx])
    simp only [digitsValue] at hds ⊢
    simp only [List.reverse_cons, List.map_append, List.map_cons, List.map_nil, List.foldl_append,
      List.foldl_cons, List.foldl_nil, hds, digit_toNat hd, Nat.ofDigits_cons]
    omega

theorem digitsValue_decimal (n : Nat) : digitsValue (decimal n) = n := by
  unfold decimal
  split
  · rename_i hn
    exact hn.symm
  · rw [digitsValue_reverse fun d hd => Nat.digits_lt_base (by decide) hd, Nat.ofDigits_digits]

theorem length_decimal_le {n k : Nat} (hk : 0 < k) (h : n < 10 ^ k) : (decimal n).length ≤ k := by
  unfold decimal
  split
  · exact hk
  · rw [List.length_map, List.length_reverse]
    exact (Nat.digits_length_le_iff (by decide) n).mpr h

theorem takeWhile_decimal (n : Nat) {rest : List UInt8}
    (hrest : ∀ b ∈ rest.head?, isDigit b = false) :
    (decimal n ++ rest).takeWhile isDigit = decimal n := by
  rw [List.takeWhile_append_of_pos (isDigit_decimal n)]
  cases rest with
  | nil => rw [List.takeWhile_nil, List.append_nil]
  | cons c rest => simp [hrest c rfl]

theorem readDecimal_decimal {width n : Nat} (hn : n < 2 ^ width) (unset : Nat) {rest : List UInt8}
    (hrest : ∀ b ∈ rest.head?, isDigit b = false) :
    readDecimal width unset (decimal n ++ rest) = n := by
  obtain ⟨b, text, hb⟩ := List.exists_cons_of_ne_nil (decimal_ne_nil n)
  have hspace := not_space_of_isDigit (isDigit_decimal n b (by simp [hb]))
  have htake := takeWhile_decimal n hrest
  have hdrop : (decimal n ++ rest).dropWhile isSpace = decimal n ++ rest := by
    simp [hb, hspace.1]
  have hhead : (decimal n ++ rest).head? = some b := by simp [hb]
  simp only [readDecimal, hdrop, hhead, Option.some.injEq, hspace.2.1, hspace.2.2, or_self,
    if_false, htake, digitsValue_decimal, decimal_ne_nil, false_or]
  exact if_neg (Nat.not_le.mpr hn)

theorem readDecimal_decimal_self {width n : Nat} (hn : n < 2 ^ width) (unset : Nat) :
    readDecimal width unset (decimal n) = n := by
  rw [← List.append_nil (decimal n)]
  exact readDecimal_decimal hn unset fun b hb => by cases hb

-- ---------------------------------------------------------------------------
-- Signed numbers
-- ---------------------------------------------------------------------------

theorem readInt_eq (text : List UInt8) : readInt text = (readSigned 32 text).map Int32.ofInt := by
  simp only [readInt, readSigned, apply_ite (Option.map Int32.ofInt), Option.map_none,
    Option.map_some, Nat.reduceSub]

theorem readSigned_decimalInt {width : Nat} {n : Int} (hlo : -2 ^ (width - 1) ≤ n)
    (hhi : n < 2 ^ (width - 1)) {rest : List UInt8} (hrest : ∀ b ∈ rest.head?, isDigit b = false) :
    readSigned width (decimalInt n ++ rest) = some n := by
  have htake := takeWhile_decimal n.natAbs hrest
  unfold decimalInt
  split
  · rename_i hneg
    have hvalue : -(n.natAbs : Int) = n := by omega
    have hspace : isSpace 45 = false := by decide
    simp only [List.cons_append, readSigned, List.dropWhile_cons, hspace, Bool.false_eq_true, if_false,
      List.head?_cons, true_or, if_true, List.tail_cons, htake, digitsValue_decimal, hvalue,
      decimal_ne_nil, false_or]
    exact if_neg (by omega)
  · rename_i hneg
    have hvalue : (n.natAbs : Int) = n := by omega
    obtain ⟨b, text, hb⟩ := List.exists_cons_of_ne_nil (decimal_ne_nil n.natAbs)
    have hspace := not_space_of_isDigit (isDigit_decimal n.natAbs b (by simp [hb]))
    have hdrop : (decimal n.natAbs ++ rest).dropWhile isSpace = decimal n.natAbs ++ rest := by
      simp [hb, hspace.1]
    have hhead : (decimal n.natAbs ++ rest).head? = some b := by simp [hb]
    simp only [readSigned, hdrop, hhead, Option.some.injEq, hspace.2.1, hspace.2.2, or_self, if_false,
      htake, digitsValue_decimal, hvalue, decimal_ne_nil, false_or]
    exact if_neg (by omega)

theorem readInt_decimalInt (n : Int32) {rest : List UInt8}
    (hrest : ∀ b ∈ rest.head?, isDigit b = false) :
    readInt (decimalInt n.toInt ++ rest) = some n := by
  rw [readInt_eq, readSigned_decimalInt n.le_toInt n.toInt_lt hrest, Option.map_some,
    Int32.ofInt_toInt]

theorem readLong_decimalInt (n : Int64) {rest : List UInt8}
    (hrest : ∀ b ∈ rest.head?, isDigit b = false) :
    readLong (decimalInt n.toInt ++ rest) = some n := by
  rw [readLong, readSigned_decimalInt n.le_toInt n.toInt_lt hrest, Option.map_some,
    Int64.ofInt_toInt]

end TextMining
