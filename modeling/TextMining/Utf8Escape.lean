import TextMining.Lib.Hexadecimal
import TextMining.Utf8

/-!
# Escape sequences

`u8_escape` writes a string in ASCII, and `u8_unescape` reads escape sequences. The
control characters without a letter of their own are written with as few digits as
they need, so what is read back is the string unless one of them of a single digit
stands before a digit.
-/

namespace TextMining.Utf8

open CrfDataNoSeg (isUtf u8Inc)

-- ---------------------------------------------------------------------------
-- The functions
-- ---------------------------------------------------------------------------

/-- `(u_int32_t)` of a `char`, which is signed. -/
def charToUcs (c : UInt8) : UInt32 := c.toInt8.toInt32.toUInt32

def octalDigit (c : UInt8) : Bool := 48 ≤ c && c ≤ 55

def octalValue (digs : List UInt8) : Nat := digs.foldl (fun n c => 8 * n + (c.toNat - 48)) 0

/-- An escape of up to `k` hexadecimal digits behind the letter `c`. -/
def readHex (k : Nat) (c : UInt8) (str : List UInt8) : UInt32 × List UInt8 :=
  let digs := Hexadecimal.take k str
  if digs = [] then (charToUcs c, str)
  else (UInt32.ofNat (Hexadecimal.value digs), str.drop digs.length)

def letters : List (UInt8 × UInt32) :=
  [(110, 10), (116, 9), (114, 13), (98, 8), (102, 12), (118, 11), (97, 7)]

def digitEscape (c : UInt8) (str : List UInt8) : UInt32 × List UInt8 :=
  if octalDigit c then
    let digs := ((c :: str).takeWhile octalDigit).take 3
    (UInt32.ofNat (octalValue digs), str.drop (digs.length - 1))
  else if c = 120 then readHex 2 c str
  else if c = 117 then readHex 4 c str
  else if c = 85 then readHex 8 c str
  else (charToUcs c, str)

/-- `u8_read_escape_sequence`, with what is left of the string. -/
def u8ReadEscapeSequence : List UInt8 → UInt32 × List UInt8
  | [] => (0, [])
  | c :: str =>
    ((letters.find? fun l => l.1 = c).map fun l => (l.2, str)).getD (digitEscape c str)

def unescapeChar (c : UInt8) (src : List UInt8) : UInt32 × List UInt8 :=
  if c = 92 then u8ReadEscapeSequence src else (charToUcs c, src)

theorem length_readHex (k : Nat) (c : UInt8) (str : List UInt8) :
    (readHex k c str).2.length ≤ str.length := by
  rw [readHex]
  split_ifs <;> simp

theorem length_digitEscape (c : UInt8) (str : List UInt8) :
    (digitEscape c str).2.length ≤ str.length := by
  rw [digitEscape]
  split_ifs
  · exact (List.length_drop ..).trans_le (Nat.sub_le _ _)
  · exact length_readHex 2 c str
  · exact length_readHex 4 c str
  · exact length_readHex 8 c str
  · exact Nat.le_refl _

theorem length_readEscape (str : List UInt8) : (u8ReadEscapeSequence str).2.length ≤ str.length := by
  cases str with
  | nil => exact Nat.le_refl 0
  | cons c str =>
    rw [u8ReadEscapeSequence]
    cases letters.find? fun l => l.1 = c with
    | none => exact (length_digitEscape c str).trans (Nat.le_succ _)
    | some ch => exact Nat.le_succ _

theorem length_unescapeChar (c : UInt8) (src : List UInt8) :
    (unescapeChar c src).2.length ≤ src.length := by
  rw [unescapeChar]
  split_ifs
  · exact length_readEscape src
  · exact Nat.le_refl _

/-- `u8_unescape` with room for `sz` bytes: what it copies before the NUL. -/
def u8Unescape : Nat → List UInt8 → List UInt8
  | _, [] => []
  | sz, c :: src =>
    if c = 0 ∨ sz = 0 then []
    else
      let temp := u8WcToutf8 (unescapeChar c src).1
      if sz < temp.length then [] else temp ++ u8Unescape (sz - temp.length) (unescapeChar c src).2
termination_by _ src => src.length
decreasing_by
  have := length_unescapeChar c src
  simp only [List.length_cons]
  omega

/-- The text that `u8_escape_wchar` prints for a character without a letter. -/
def printEscape (ch : UInt32) : List UInt8 :=
  if ch = 92 then [92, 92]
  else if ch < 32 ∨ ch = 0x7f then 92 :: 120 :: Hexadecimal.print 1 ch.toUInt8.toNat
  else if 0xFFFF < ch then 92 :: 85 :: Hexadecimal.print 8 ch.toNat
  else if 0x80 ≤ ch ∧ ch ≤ 0xFFFF then 92 :: 117 :: Hexadecimal.print 4 ch.toUInt16.toNat
  else [ch.toUInt8]

def u8EscapeWchar (ch : UInt32) : List UInt8 :=
  ((letters.find? fun l => l.2 = ch).map fun l => [92, l.1]).getD (printEscape ch)

/-- The next text that `u8_escape` prints, and the string behind its character. -/
def escapeChar (escapeQuotes : Bool) (c : UInt8) (src : List UInt8) : List UInt8 × List UInt8 :=
  if escapeQuotes ∧ c = 34 then ([92, 34], src)
  else (u8EscapeWchar (u8Nextchar (c :: src)).1, (u8Nextchar (c :: src)).2)

theorem length_escapeChar (escapeQuotes : Bool) (c : UInt8) (src : List UInt8) :
    (escapeChar escapeQuotes c src).2.length ≤ src.length := by
  rw [escapeChar]
  split_ifs <;> simp [u8Nextchar]

/-- `u8_escape` with room for `sz` bytes: the text in the buffer before its NUL. A text
that `snprintf` cuts off is the last one. -/
def u8Escape (escapeQuotes : Bool) : Nat → List UInt8 → List UInt8
  | _, [] => []
  | sz, c :: src =>
    if c = 0 ∨ sz = 0 then []
    else
      let text := (escapeChar escapeQuotes c src).1
      text.take (sz - 1) ++
        u8Escape escapeQuotes (sz - text.length) (escapeChar escapeQuotes c src).2
termination_by _ src => src.length
decreasing_by
  have := length_escapeChar escapeQuotes c src
  simp only [List.length_cons]
  omega

-- ---------------------------------------------------------------------------
-- A character
-- ---------------------------------------------------------------------------

def escaped (escapeQuotes : Bool) (ch : UInt32) : List UInt8 :=
  if escapeQuotes ∧ ch = 34 then [92, 34] else u8EscapeWchar ch

/-- A character that is written with a single digit. -/
def Single (ch : UInt32) : Prop := ch < 16 ∧ ¬ (7 ≤ ch ∧ ch ≤ 13)

/-- A character that a reader of escapes takes for a digit. -/
def Digit (ch : UInt32) : Prop := ch < 0x80 ∧ Hexadecimal.isDigit ch.toUInt8 = true

section
variable {ch : UInt32} {b c : UInt8} {rest s : List UInt8} {q : Bool}

theorem charToUcs_toUInt8 (h : ch < 0x80) : charToUcs ch.toUInt8 = ch := by
  have hall : ∀ n : Fin 128, charToUcs (UInt32.ofNat n).toUInt8 = UInt32.ofNat n := by
    decide +kernel
  simpa only [UInt32.ofNat_toNat] using hall ⟨ch.toNat, h⟩

theorem escapeChar_sequence (hb : u8WcToutf8 ch = b :: rest) (h : Sequence ch b rest)
    (hs : ∀ x ∈ s.head?, isUtf x = true) :
    escapeChar q b (rest ++ s) = (escaped q ch, s) := by
  have hnext := h.u8Nextchar hs
  rw [List.cons_append] at hnext
  rw [escapeChar, escaped, hnext]
  by_cases hch : ch = 34
  · subst hch
    obtain ⟨rfl, rfl⟩ : (34 : UInt8) = b ∧ [] = rest := List.cons.inj hb
    simp only [and_true, List.nil_append]
    split_ifs <;> rfl
  · have hne : b ≠ 34 := by
      rintro rfl
      exact hch (UInt32.toNat_inj.mp (h.ascii (by decide)))
    rw [if_neg fun hq => hne hq.2, if_neg fun hq => hch hq.2]

theorem readHex_print {k p n : Nat} (h : Hexadecimal.take k (Hexadecimal.print p n ++ s) =
    Hexadecimal.print p n) : readHex k c (Hexadecimal.print p n ++ s) = (UInt32.ofNat n, s) := by
  rw [readHex]
  simp only [h]
  rw [if_neg (Hexadecimal.print_ne_nil p n), Hexadecimal.value_print, List.drop_left]

theorem readHex_full {k n : Nat} (hk : 0 < k) (hn : n < 16 ^ k) :
    readHex k c (Hexadecimal.print k n ++ s) = (UInt32.ofNat n, s) :=
  readHex_print (Hexadecimal.take_full Hexadecimal.isDigit_print (Hexadecimal.length_print hk hn))

theorem readEscape_letter {l : UInt8 × UInt32} (h : l ∈ letters) (s : List UInt8) :
    u8ReadEscapeSequence (l.1 :: s) = (l.2, s) := by
  simp only [letters, List.mem_cons, List.not_mem_nil, or_false] at h
  rcases h with rfl | rfl | rfl | rfl | rfl | rfl | rfl <;> rfl

theorem not_letter (h : letters.find? (fun l => l.2 = ch) = none) : ¬ (7 ≤ ch ∧ ch ≤ 13) := by
  rintro ⟨hlo, hhi⟩
  have hlo' : 7 ≤ ch.toNat := hlo
  have hhi' : ch.toNat ≤ 13 := hhi
  have hne : ∀ l ∈ letters, l.2.toNat ≠ ch.toNat := fun l hl he => by
    simpa [UInt32.toNat_inj.mp he] using List.find?_eq_none.mp h l hl
  simp [letters] at hne
  omega

theorem toNat_control (h : ch < 32 ∨ ch = 0x7f) : ch.toNat < 128 := by
  rcases h with h | rfl
  · have : ch.toNat < 32 := h
    omega
  · decide

theorem toNat_toUInt8_control (h : ch < 32 ∨ ch = 0x7f) : ch.toUInt8.toNat = ch.toNat := by
  have := toNat_control h
  rw [UInt32.toNat_toUInt8, Nat.mod_eq_of_lt (by omega)]

theorem print_control (h : ch < 32 ∨ ch = 0x7f) (hs : ch < 16 → ∀ x ∈ s.head?,
    Hexadecimal.isDigit x = false) :
    Hexadecimal.take 2 (Hexadecimal.print 1 ch.toNat ++ s) = Hexadecimal.print 1 ch.toNat := by
  by_cases h16 : ch < 16
  · have hlen : (Hexadecimal.print 1 ch.toNat).length = 1 :=
      Hexadecimal.length_print (Nat.le_refl 1) h16
    exact Hexadecimal.take_short Hexadecimal.isDigit_print (by omega) (hs h16)
  · have hge : 16 ≤ ch.toNat := Nat.le_of_not_lt h16
    have hlt := toNat_control h
    refine Hexadecimal.take_full Hexadecimal.isDigit_print ?_
    rw [Hexadecimal.print, if_neg (by omega), Hexadecimal.print, if_pos (by omega)]
    rfl

theorem printEscape_cases (ch : UInt32) :
    (ch = 92 ∧ printEscape ch = [92, 92]) ∨
      ((ch < 32 ∨ ch = 0x7f) ∧ printEscape ch = 92 :: 120 :: Hexadecimal.print 1 ch.toNat) ∨
      printEscape ch = 92 :: 85 :: Hexadecimal.print 8 ch.toNat ∨
      (ch.toNat < 65536 ∧ printEscape ch = 92 :: 117 :: Hexadecimal.print 4 ch.toNat) ∨
      (ch < 0x80 ∧ ch ≠ 92 ∧ printEscape ch = [ch.toUInt8]) := by
  rw [printEscape]
  by_cases h92 : ch = 92
  · exact .inl ⟨h92, if_pos h92⟩
  rw [if_neg h92]
  by_cases hctl : ch < 32 ∨ ch = 0x7f
  · exact .inr (.inl ⟨hctl, by rw [if_pos hctl, toNat_toUInt8_control hctl]⟩)
  rw [if_neg hctl]
  by_cases hlong : 0xFFFF < ch
  · exact .inr (.inr (.inl (if_pos hlong)))
  rw [if_neg hlong]
  by_cases hshort : 0x80 ≤ ch ∧ ch ≤ 0xFFFF
  · have hlt : ch.toNat < 65536 := Nat.lt_succ_of_le hshort.2
    exact .inr (.inr (.inr (.inl
      ⟨hlt, by rw [if_pos hshort, UInt32.toNat_toUInt16, Nat.mod_eq_of_lt hlt]⟩)))
  · have h1 : ¬ 0xFFFF < ch.toNat := hlong
    have h2 : ¬ (0x80 ≤ ch.toNat ∧ ch.toNat ≤ 0xFFFF) := hshort
    have hlt : ch.toNat < 0x80 := by omega
    exact .inr (.inr (.inr (.inr ⟨hlt, h92, if_neg hshort⟩)))

theorem readEscape_print (hch : ch ≠ 0) (hletter : letters.find? (fun l => l.2 = ch) = none)
    (hs : Single ch → ∀ x ∈ s.head?, Hexadecimal.isDigit x = false) :
    ∃ c t, printEscape ch ++ s = c :: t ∧ c ≠ 0 ∧ unescapeChar c t = (ch, s) := by
  rcases printEscape_cases ch with ⟨rfl, hp⟩ | ⟨hctl, hp⟩ | hp | ⟨hlt, hp⟩ | ⟨hlt, h92, hp⟩
  · exact ⟨92, 92 :: s, by rw [hp]; rfl, by decide, rfl⟩
  · refine ⟨92, 120 :: (Hexadecimal.print 1 ch.toNat ++ s), by rw [hp]; rfl, by decide, ?_⟩
    change readHex 2 120 (Hexadecimal.print 1 ch.toNat ++ s) = _
    rw [readHex_print (print_control hctl fun h16 => hs ⟨h16, not_letter hletter⟩),
      UInt32.ofNat_toNat]
  · refine ⟨92, 85 :: (Hexadecimal.print 8 ch.toNat ++ s), by rw [hp]; rfl, by decide, ?_⟩
    change readHex 8 85 (Hexadecimal.print 8 ch.toNat ++ s) = _
    rw [readHex_full (by decide) ch.toNat_lt, UInt32.ofNat_toNat]
  · refine ⟨92, 117 :: (Hexadecimal.print 4 ch.toNat ++ s), by rw [hp]; rfl, by decide, ?_⟩
    change readHex 4 117 (Hexadecimal.print 4 ch.toNat ++ s) = _
    rw [readHex_full (by decide) hlt, UInt32.ofNat_toNat]
  · have hucs := charToUcs_toUInt8 hlt
    have hne : ∀ c : UInt8, charToUcs c ≠ ch → ch.toUInt8 ≠ c := fun c hc h => hc (h ▸ hucs)
    refine ⟨ch.toUInt8, s, by rw [hp]; rfl, hne 0 hch.symm, ?_⟩
    rw [unescapeChar, if_neg (hne 92 (Ne.symm h92)), hucs]

/-- An escape is read as the character it was written for. -/
theorem unescapeChar_escaped (hch : ch ≠ 0)
    (hs : Single ch → ∀ x ∈ s.head?, Hexadecimal.isDigit x = false) :
    ∃ c t, escaped q ch ++ s = c :: t ∧ c ≠ 0 ∧ unescapeChar c t = (ch, s) := by
  rw [escaped]
  by_cases hq : q ∧ ch = 34
  · obtain rfl := hq.2
    rw [if_pos hq]
    exact ⟨92, 34 :: s, rfl, by decide, rfl⟩
  rw [if_neg hq, u8EscapeWchar]
  cases hletter : letters.find? fun l => l.2 = ch with
  | none => exact readEscape_print hch hletter hs
  | some l =>
    have hl : l.2 = ch := by simpa using List.find?_some hletter
    refine ⟨92, l.1 :: s, rfl, by decide, ?_⟩
    rw [← hl]
    exact readEscape_letter (List.mem_of_find?_eq_some hletter) s

theorem escaped_digit (h : Digit ch) : escaped q ch = [ch.toUInt8] := by
  have hall : ∀ n : Fin 128, Hexadecimal.isDigit (UInt32.ofNat n).toUInt8 = true →
      UInt32.ofNat n ≠ 34 ∧ letters.find? (fun l => l.2 = UInt32.ofNat n) = none ∧
        printEscape (UInt32.ofNat n) = [(UInt32.ofNat n).toUInt8] := by
    decide +kernel
  obtain ⟨hq, hl, hp⟩ : ch ≠ 34 ∧ letters.find? (fun l => l.2 = ch) = none ∧
      printEscape ch = [ch.toUInt8] := by
    simpa only [UInt32.ofNat_toNat] using hall ⟨ch.toNat, h.1⟩ (by simpa using h.2)
  rw [escaped, if_neg fun h => hq h.2, u8EscapeWchar, hl]
  exact hp

theorem head_backslash (t : List UInt8) :
    ∀ x ∈ (92 :: t ++ s).head?, Hexadecimal.isDigit x = false := by
  intro x hx
  obtain rfl : 92 = x := by simpa using hx
  decide

theorem head_printEscape (hdigit : ¬ Digit ch) :
    ∀ x ∈ (printEscape ch ++ s).head?, Hexadecimal.isDigit x = false := by
  rcases printEscape_cases ch with ⟨-, hp⟩ | ⟨-, hp⟩ | hp | ⟨-, hp⟩ | ⟨hlt, -, hp⟩ <;> rw [hp]
  · exact head_backslash _
  · exact head_backslash _
  · exact head_backslash _
  · exact head_backslash _
  · intro x hx
    obtain rfl : ch.toUInt8 = x := by simpa using hx
    rw [Bool.eq_false_iff]
    exact fun h => hdigit ⟨hlt, h⟩

theorem head_escaped (hdigit : ¬ Digit ch) :
    ∀ x ∈ (escaped q ch ++ s).head?, Hexadecimal.isDigit x = false := by
  rw [escaped]
  split_ifs
  · exact head_backslash _
  · rw [u8EscapeWchar]
    cases letters.find? fun l => l.2 = ch with
    | none => exact head_printEscape hdigit
    | some l => exact head_backslash _

theorem escaped_single (h : Single ch) : escaped q ch = [92, 120, Hexadecimal.digit ch.toNat] := by
  have hall : ∀ n : Fin 16, ¬ (7 ≤ n.val ∧ n.val ≤ 13) →
      UInt32.ofNat n ≠ 34 ∧ letters.find? (fun l => l.2 = UInt32.ofNat n) = none ∧
        UInt32.ofNat n ≠ 92 ∧ (UInt32.ofNat n).toUInt8.toNat = n.val := by
    decide +kernel
  obtain ⟨hq, hl, h92, h8⟩ := hall ⟨ch.toNat, h.1⟩ h.2
  rw [UInt32.ofNat_toNat] at hq hl h92 h8
  have hlt : ch.toNat < 16 := h.1
  have h32 : ch < 32 := Nat.lt_trans hlt (by decide)
  rw [escaped, if_neg fun h => hq h.2, u8EscapeWchar, hl, Option.map_none, Option.getD_none,
    printEscape, if_neg h92, if_pos (.inl h32), h8, Hexadecimal.print, if_pos ⟨hlt, Nat.le_refl 1⟩]

end

-- ---------------------------------------------------------------------------
-- A string
-- ---------------------------------------------------------------------------

section
variable {cs : List UInt32} {q : Bool}

theorem u8Escape_encode (hcs : Characters cs) (junk : List UInt8) {sz : Nat}
    (hsz : (cs.flatMap (escaped q)).length < sz) :
    u8Escape q sz (encode cs ++ 0 :: junk) = cs.flatMap (escaped q) := by
  induction cs generalizing sz with
  | nil => simp [u8Escape]
  | cons ch cs ih =>
    obtain ⟨b, rest, hb, hseq, hch, hb0, hcs'⟩ := hcs.cons
    rw [List.flatMap_cons, List.length_append] at hsz
    have hnext := escapeChar_sequence (q := q) hb hseq
      (@head_encode cs junk hcs')
    have hrest : (cs.flatMap (escaped q)).length < sz - (escaped q ch).length := by omega
    rw [encode_cons, hb, List.append_assoc, List.cons_append, u8Escape,
      if_neg (by rw [not_or]; exact ⟨hb0, by omega⟩)]
    simp only [hnext]
    rw [List.take_of_length_le (by omega), ih hcs' hrest, List.flatMap_cons]

/-- No character of a single digit stands before a digit. -/
def Unambiguous (cs : List UInt32) : Prop := cs.IsChain fun a b => ¬ (Single a ∧ Digit b)

/-- A character of a single digit before a digit: what is read is a larger one. -/
theorem unescapeChar_clash {a d : UInt32} (ha : Single a) (ha0 : a ≠ 0) (hd : Digit d)
    (s : List UInt8) : ∃ t, escaped q a ++ (escaped q d ++ s) = 92 :: t ∧
      (unescapeChar 92 t).1.toNat < 256 ∧ a.toNat < (unescapeChar 92 t).1.toNat := by
  have hlt : a.toNat < 16 := ha.1
  have hpos : 0 < a.toNat := Nat.pos_of_ne_zero fun h => ha0 (UInt32.toNat_inj.mp h)
  have hd16 := Hexadecimal.digitValue_lt hd.2
  have hdigs : ∀ x ∈ [Hexadecimal.digit a.toNat, d.toUInt8], Hexadecimal.isDigit x = true := by
    simp [Hexadecimal.isDigit_digit hlt, hd.2]
  have htake : Hexadecimal.take 2 (Hexadecimal.digit a.toNat :: d.toUInt8 :: s) =
      [Hexadecimal.digit a.toNat, d.toUInt8] := @Hexadecimal.take_full 2 _ s hdigs rfl
  have hvalue : Hexadecimal.value [Hexadecimal.digit a.toNat, d.toUInt8] =
      16 * a.toNat + Hexadecimal.digitValue d.toUInt8 := by
    simp [Hexadecimal.value, Hexadecimal.digitValue_digit hlt]
  refine ⟨120 :: Hexadecimal.digit a.toNat :: d.toUInt8 :: s, ?_, ?_⟩
  · rw [escaped_single ha, escaped_digit hd]
    rfl
  · change (readHex 2 120 (Hexadecimal.digit a.toNat :: d.toUInt8 :: s)).1.toNat < 256 ∧
      _ < (readHex 2 120 (Hexadecimal.digit a.toNat :: d.toUInt8 :: s)).1.toNat
    rw [readHex]
    simp only [htake]
    rw [if_neg (List.cons_ne_nil _ _), hvalue, UInt32.toNat_ofNat']
    omega

theorem Unambiguous.cons_iff {ch : UInt32} :
    Unambiguous (ch :: cs) ↔ ¬ (Single ch ∧ ∃ d ∈ cs.head?, Digit d) ∧ Unambiguous cs := by
  cases cs with
  | nil => simp [Unambiguous]
  | cons d cs => simp [Unambiguous]

theorem unescape_iff (hcs : Characters cs) (junk : List UInt8) {sz : Nat}
    (hsz : (encode cs).length ≤ sz) :
    u8Unescape sz (cs.flatMap (escaped q) ++ 0 :: junk) = encode cs ↔ Unambiguous cs := by
  induction cs generalizing sz with
  | nil => simp [u8Unescape, Unambiguous]
  | cons ch cs ih =>
    obtain ⟨b, rest, hb, hseq, hch, hb0, hcs'⟩ := hcs.cons
    rw [encode_cons, hb, List.length_append, List.length_cons] at hsz
    rw [List.flatMap_cons, List.append_assoc, Unambiguous.cons_iff]
    by_cases hclash : Single ch ∧ ∃ d ∈ cs.head?, Digit d
    · -- the first byte read is not the one that was written
      refine iff_of_false (fun he => ?_) fun h => h.1 hclash
      obtain ⟨hsingle, d, hd, hdigit⟩ := hclash
      obtain ⟨cs, rfl⟩ := List.head?_eq_some_iff.mp hd
      obtain ⟨t, ht, hlt, hgt⟩ := unescapeChar_clash (q := q) hsingle hch hdigit
        (cs.flatMap (escaped q) ++ 0 :: junk)
      rw [List.flatMap_cons, List.append_assoc, ht, u8Unescape,
        if_neg (by rw [not_or]; exact ⟨by decide, by omega⟩), encode_cons, hb] at he
      have hvalid : (unescapeChar 92 t).1 < 0x110000 := Nat.lt_trans hlt (by decide)
      obtain ⟨b', rest', hb', hseq'⟩ := u8WcToutf8_sequence hvalid
      have hbyte : b.toNat = ch.toNat := hseq.first_of_ascii hb (Nat.lt_trans hsingle.1 (by decide))
      simp only [hb'] at he
      split_ifs at he
      · cases he
      · obtain ⟨rfl, -⟩ := List.cons.inj he
        have h16 : ch.toNat < 16 := hsingle.1
        have := hseq'.ascii (by omega)
        omega
    · have hhead : Single ch → ∀ x ∈ (cs.flatMap (escaped q) ++ 0 :: junk).head?,
          Hexadecimal.isDigit x = false := by
        intro hsingle
        cases cs with
        | nil =>
          intro x hx
          obtain rfl : 0 = x := by simpa using hx
          decide
        | cons d cs =>
          rw [List.flatMap_cons, List.append_assoc]
          exact head_escaped fun hd => hclash ⟨hsingle, d, rfl, hd⟩
      obtain ⟨c, t, ht, hc, hread⟩ := unescapeChar_escaped (q := q) hch hhead
      rw [ht, u8Unescape, if_neg (by rw [not_or]; exact ⟨hc, by omega⟩)]
      simp only [hread]
      rw [hb, if_neg (by simp only [List.length_cons]; omega), encode_cons, hb,
        List.append_cancel_left_eq, ih hcs' (by simp only [List.length_cons]; omega)]
      exact (and_iff_right hclash).symm

/-- With room for both texts, what `u8_unescape` makes of what `u8_escape` wrote is the
string exactly when no character of a single digit stands before a digit in it. -/
theorem u8Unescape_u8Escape (hcs : Characters cs) {sz₁ sz₂ : Nat}
    (hsz₁ : (cs.flatMap (escaped q)).length < sz₁)
    (hsz₂ : (encode cs).length ≤ sz₂) (junk₁ junk₂ : List UInt8) :
    u8Unescape sz₂ (u8Escape q sz₁ (encode cs ++ 0 :: junk₁) ++ 0 :: junk₂) =
      encode cs ↔ Unambiguous cs := by
  rw [u8Escape_encode hcs junk₁ hsz₁]
  exact unescape_iff hcs junk₂ hsz₂

end

/-- The control character 1 before an `A` is written as `\x1A`, which is another one. -/
theorem u8Unescape_u8Escape_clash :
    u8Unescape 2 (u8Escape true 5 (encode [1, 0x41] ++ [0]) ++ [0]) ≠ encode [1, 0x41] := by
  have hcs : Characters [1, 0x41] := by
    intro ch hch
    rcases List.mem_cons.mp hch with rfl | hch
    · decide
    · obtain rfl := List.mem_singleton.mp hch
      decide
  have hsingle : Single 1 := by
    unfold Single
    decide
  have hdigit : Digit 0x41 := by
    unfold Digit
    decide
  have hsz₁ : ([1, 0x41].flatMap (escaped true)).length < 5 := by
    simp [escaped_single hsingle, escaped_digit hdigit]
  have hsz₂ : (encode [1, 0x41]).length ≤ 2 := by decide
  intro h
  have hun := (u8Unescape_u8Escape hcs hsz₁ hsz₂ [] []).mp h
  exact (Unambiguous.cons_iff.mp hun).1 ⟨hsingle, _, rfl, hdigit⟩

end TextMining.Utf8
