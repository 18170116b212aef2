import Mathlib.Data.List.Infix
import Mathlib.Tactic.Common

/-!
# Word positions of characters

`InWord` says where in its word a character stands. The words lie in a buffer
with a NUL behind each, so their positions run ahead of the offsets in the text
by one byte a word.
-/

namespace TextMining.CrfDataNoSeg

structure Character where
  bytes : List UInt8
  nonempty : 0 < bytes.length
  short : bytes.length ≤ 4

def bytesOf (cs : List Character) : List UInt8 := cs.flatMap Character.bytes

/-- `scw_out_t`: `wpbtermcount` is the length of `wpbtermpos`. -/
structure ScwOut where
  wpcompbuf : List UInt8
  wpbtermpos : List UInt32

def getTermPos (property : UInt32) : UInt32 := property &&& 0x00FFFFFF

def getTermLen (property : UInt32) : UInt32 := property >>> 24

def inWordLoop (curse : Int) : Nat → List UInt32 → Nat
  | _, [] => 0
  | i, property :: rest =>
    let pos : Int := (getTermPos property).toNat
    let len : Int := (getTermLen property).toNat
    if curse > pos + len - 1 - i then inWordLoop curse (i + 1) rest
    else if curse = pos + len - 1 - i then 2
    else if curse > pos - i ∧ curse < pos + len - 1 - i then 1
    else if curse = pos - i then 0
    -- `break`
    else 0

def inWord (curse : Int) (scwout : ScwOut) : Nat := inWordLoop curse 0 scwout.wpbtermpos

-- ---------------------------------------------------------------------------
-- Words in the buffer
-- ---------------------------------------------------------------------------

def Points : Nat → List UInt32 → List (List Character) → Prop
  | _, [], [] => True
  | pos, property :: rest, w :: ws =>
    (getTermPos property).toNat = pos ∧ (getTermLen property).toNat = (bytesOf w).length ∧
      Points (pos + (bytesOf w).length + 1) rest ws
  | _, _, _ => False

structure Cut (scwout : ScwOut) (words : List (List Character)) : Prop where
  nonempty : ∀ w ∈ words, w ≠ []
  buffer : scwout.wpcompbuf = words.flatMap fun w => bytesOf w ++ [0]
  points : Points 0 scwout.wpbtermpos words

/-- 0 at the beginning of a word, 2 at its end and 1 in the middle, for a
character between `pre` and `post`. -/
def wordPosition (pre post : List Character) : Nat :=
  if pre = [] then 0 else if post = [] then 2 else 1

/-- What `InWord` returns: it compares bytes. -/
def bytePosition (pre : List Character) (c : Character) (post : List Character) : Nat :=
  if c.bytes.length = 1 ∧ post = [] then 2 else if pre = [] then 0 else 1

theorem bytesOf_append (a b : List Character) : bytesOf (a ++ b) = bytesOf a ++ bytesOf b :=
  List.flatMap_append

theorem bytesOf_cons (c : Character) (cs : List Character) :
    bytesOf (c :: cs) = c.bytes ++ bytesOf cs := List.flatMap_cons

theorem length_bytesOf_eq_zero {cs : List Character} : (bytesOf cs).length = 0 ↔ cs = [] := by
  constructor
  · intro h
    cases cs with
    | nil => rfl
    | cons c cs =>
      rw [bytesOf_cons, List.length_append] at h
      exact absurd c.nonempty (by omega)
  · rintro rfl
    rfl

section
variable {off i k len : Nat} {property : UInt32} {rest : List UInt32}

theorem inWordLoop_of_lt (hpos : (getTermPos property).toNat = off + i)
    (hlen : (getTermLen property).toNat = len) (hk : k < len) :
    inWordLoop (off + k : Nat) i (property :: rest) =
      if k + 1 = len then 2 else if k = 0 then 0 else 1 := by
  simp only [inWordLoop, hpos, hlen]
  rw [if_neg (by omega)]
  by_cases hlast : k + 1 = len
  · rw [if_pos (by omega), if_pos hlast]
  · rw [if_neg (by omega), if_neg hlast]
    by_cases hfirst : k = 0
    · rw [if_neg (by omega), if_pos (by omega), if_pos hfirst]
    · rw [if_pos (by omega), if_neg hfirst]

theorem inWordLoop_of_le (hpos : (getTermPos property).toNat = off + i)
    (hlen : (getTermLen property).toNat = len) (hk : len ≤ k) :
    inWordLoop (off + k : Nat) i (property :: rest) = inWordLoop (off + k : Nat) (i + 1) rest := by
  simp only [inWordLoop, hpos, hlen]
  rw [if_pos (by omega)]

end

section
variable {pre post : List Character} {c : Character}

theorem inWordLoop_eq {earlier later : List (List Character)} {off i : Nat}
    {properties : List UInt32}
    (h : Points (off + i) properties (earlier ++ (pre ++ c :: post) :: later)) :
    inWordLoop (off + ((bytesOf earlier.flatten).length + (bytesOf pre).length) : Nat) i
      properties = bytePosition pre c post := by
  induction earlier generalizing off i properties with
  | nil =>
    cases properties with
    | nil => exact h.elim
    | cons property rest =>
      obtain ⟨hpos, hlen, -⟩ := h
      have hc := c.nonempty
      rw [bytesOf_append, bytesOf_cons, List.length_append, List.length_append] at hlen
      have hlast : (bytesOf pre).length + 1 =
          (bytesOf pre).length + (c.bytes.length + (bytesOf post).length) ↔
            c.bytes.length = 1 ∧ post = [] := by
        rw [← length_bytesOf_eq_zero]
        omega
      have hzero : (bytesOf ([] : List (List Character)).flatten).length = 0 := rfl
      rw [hzero, Nat.zero_add, inWordLoop_of_lt hpos hlen (by omega), bytePosition]
      simp only [hlast, length_bytesOf_eq_zero]
  | cons w earlier ih =>
    cases properties with
    | nil => exact h.elim
    | cons property rest =>
      obtain ⟨hpos, hlen, hrest⟩ := h
      have hnext : off + i + (bytesOf w).length + 1 = off + (bytesOf w).length + (i + 1) := by
        omega
      rw [hnext] at hrest
      rw [List.flatten_cons, bytesOf_append, List.length_append,
        inWordLoop_of_le hpos hlen (by omega), ← ih hrest]
      congr 2
      omega

/-- At a character of a word `InWord` is right if and only if the character is
not a word of one byte, and, where it ends a longer word, is a single byte. -/
theorem inWord_eq_iff {scwout : ScwOut} {earlier later : List (List Character)}
    (h : Cut scwout (earlier ++ (pre ++ c :: post) :: later)) :
    inWord ((bytesOf earlier.flatten).length + (bytesOf pre).length : Nat) scwout =
        wordPosition pre post ↔
      (pre = [] ∧ ¬ (post = [] ∧ c.bytes.length = 1)) ∨ (pre ≠ [] ∧ post ≠ []) ∨
        (pre ≠ [] ∧ post = [] ∧ c.bytes.length = 1) := by
  have hpoints := h.points
  rw [← Nat.zero_add 0] at hpoints
  have hloop := inWordLoop_eq hpoints
  rw [Nat.zero_add] at hloop
  rw [inWord, hloop, bytePosition, wordPosition]
  by_cases hpre : pre = []
  · by_cases hpost : post = []
    · by_cases hone : c.bytes.length = 1
      · simp [hpre, hpost, hone]
      · simp [hpre, hpost, hone]
    · simp [hpre, hpost]
  · by_cases hpost : post = []
    · by_cases hone : c.bytes.length = 1
      · simp [hpre, hpost, hone]
      · simp [hpre, hpost, hone]
    · simp [hpre, hpost]

end

-- ---------------------------------------------------------------------------
-- A word of two characters
-- ---------------------------------------------------------------------------

def zhong : Character := ⟨[0xE4, 0xB8, 0xAD], by decide, by decide⟩
def guo : Character := ⟨[0xE5, 0x9B, 0xBD], by decide, by decide⟩

def twoWords : ScwOut :=
  ⟨[0xE4, 0xB8, 0xAD, 0xE5, 0x9B, 0xBD, 0, 97, 0], [0x06000000, 0x01000007]⟩

def letterA : Character := ⟨[97], by decide, by decide⟩

theorem cut_twoWords : Cut twoWords [[zhong, guo], [letterA]] := by
  refine ⟨?_, rfl, ?_⟩
  · simp only [List.forall_mem_cons, List.not_mem_nil, false_imp_iff, implies_true, and_true]
    exact ⟨List.cons_ne_nil _ _, List.cons_ne_nil _ _⟩
  · exact ⟨by decide, by decide, by decide, by decide, trivial⟩

/-- The first character is at the beginning. -/
theorem inWord_eq_iff_zhong : inWord 0 twoWords = wordPosition [] [guo] :=
  (@inWord_eq_iff [] [guo] zhong twoWords [] [[letterA]] cut_twoWords).mpr (.inl ⟨rfl, by simp⟩)

/-- The second character ends the word, but is reported in its middle; the
letter begins its word, but is reported at the end. -/
theorem inWord_ne_guo : Cut twoWords [[zhong, guo], [letterA]] ∧
    inWord 3 twoWords ≠ wordPosition [zhong] [] ∧ inWord 6 twoWords ≠ wordPosition [] [] := by
  refine ⟨cut_twoWords, ?_, ?_⟩
  · rw [wordPosition, if_neg (List.cons_ne_nil _ _), if_pos rfl]
    decide
  · rw [wordPosition, if_pos rfl]
    decide

end TextMining.CrfDataNoSeg
