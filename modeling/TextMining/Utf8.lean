import TextMining.CrfDataNoSeg.TagLabels

/-!
# UTF-8 and wide characters

`utf8.c` turns wide characters into UTF-8 and back and walks along a string a
character at a time. It checks nothing, so what it reads has to come from its own
writer. A string here is the memory from its first byte on.
-/

namespace TextMining.Utf8

open CrfDataNoSeg (isUtf u8Inc)

-- ---------------------------------------------------------------------------
-- The functions
-- ---------------------------------------------------------------------------

def offsetsFromUTF8 : List UInt32 :=
  [0x00000000, 0x00003080, 0x000E2080, 0x03C82080, 0xFA082080, 0x82082080]

/-- The table, which is constant between these bytes. -/
def trailingBytesForUTF8 (b : UInt8) : Nat :=
  if b < 0xC0 then 0
  else if b < 0xE0 then 1
  else if b < 0xF0 then 2
  else if b < 0xF8 then 3
  else if b < 0xFC then 4
  else 5

def addBytes (bytes : List UInt8) : UInt32 :=
  bytes.foldl (fun ch b => (ch <<< 6) + b.toUInt32) 0

/-- The bytes that `u8_wc_toutf8` writes; none for what is no character. -/
def u8WcToutf8 (ch : UInt32) : List UInt8 :=
  if ch < 0x80 then [ch.toUInt8]
  else if ch < 0x800 then [((ch >>> 6) ||| 0xC0).toUInt8, ((ch &&& 0x3F) ||| 0x80).toUInt8]
  else if ch < 0x10000 then
    [((ch >>> 12) ||| 0xE0).toUInt8, (((ch >>> 6) &&& 0x3F) ||| 0x80).toUInt8,
      ((ch &&& 0x3F) ||| 0x80).toUInt8]
  else if ch < 0x110000 then
    [((ch >>> 18) ||| 0xF0).toUInt8, (((ch >>> 12) &&& 0x3F) ||| 0x80).toUInt8,
      (((ch >>> 6) &&& 0x3F) ||| 0x80).toUInt8, ((ch &&& 0x3F) ||| 0x80).toUInt8]
  else []

/-- What `u8_toutf8` leaves: the bytes of the characters, whether a NUL follows
them, and how many characters it went past. -/
structure Written where
  dest : List UInt8
  nul : Bool
  count : Nat
  deriving DecidableEq

/-- `u8_toutf8` with room for `sz` bytes, of the characters that `srcsz` or a zero
delimits. It has its own copy of `u8_wc_toutf8`, and leaves out what is no character. -/
def u8Toutf8 : Nat → List UInt32 → Written
  | sz, [] => ⟨[], 0 < sz, 0⟩
  | sz, ch :: src =>
    if sz < (u8WcToutf8 ch).length then ⟨[], false, 0⟩
    else
      let r := u8Toutf8 (sz - (u8WcToutf8 ch).length) src
      ⟨u8WcToutf8 ch ++ r.dest, r.nul, r.count + 1⟩

/-- How `u8_toucs` finds the end of the source. -/
inductive Srcsz where
  | terminated
  | bytes
  deriving DecidableEq

def Srcsz.done (srcsz : Srcsz) (b : UInt8) (rest : List UInt8) : Bool :=
  match srcsz with
  | .terminated => b = 0
  | .bytes => rest.length < trailingBytesForUTF8 b

/-- `u8_toucs` with room for `sz - 1` characters before the NUL. -/
def u8Toucs (srcsz : Srcsz) : Nat → List UInt8 → List UInt32
  | 0, _ => []
  | _ + 1, [] => []
  | sz + 1, b :: rest =>
    let nb := trailingBytesForUTF8 b
    if srcsz.done b rest then []
    else
      -- the switch has no case for sequences of five and six bytes
      let len := if nb ≤ 3 then nb + 1 else 0
      (addBytes ((b :: rest).take len) - offsetsFromUTF8.getD nb 0) ::
        u8Toucs srcsz sz ((b :: rest).drop len)

def u8Nextchar : List UInt8 → UInt32 × List UInt8
  | [] => (0, [])
  | b :: rest =>
    let more := rest.takeWhile fun x => x ≠ 0 && !isUtf x
    (addBytes (b :: more) - offsetsFromUTF8.getD more.length 0, rest.drop more.length)

def u8Offset : List UInt8 → Nat → Nat
  | _, 0 => 0
  | [], _ + 1 => 0
  | b :: rest, charnum + 1 =>
    if b = 0 then 0
    else u8Inc (b :: rest) + u8Offset ((b :: rest).drop (u8Inc (b :: rest))) charnum

theorem u8Inc_pos (s : List UInt8) : 0 < u8Inc s := by
  rw [u8Inc]
  split_ifs <;> decide

def u8Charnum : List UInt8 → Nat → Nat
  | [], _ => 0
  | b :: rest, offset =>
    if 0 < offset ∧ b ≠ 0 then
      u8Charnum ((b :: rest).drop (u8Inc (b :: rest))) (offset - u8Inc (b :: rest)) + 1
    else 0
termination_by s => s.length
decreasing_by
  have := u8Inc_pos (b :: rest)
  simp only [List.length_drop, List.length_cons]
  omega

def u8Strlen : List UInt8 → Nat
  | [] => 0
  | b :: rest =>
    if (u8Nextchar (b :: rest)).1 ≠ 0 then u8Strlen (u8Nextchar (b :: rest)).2 + 1 else 0
termination_by s => s.length
decreasing_by
  simp only [u8Nextchar, List.length_drop, List.length_cons]
  omega

def u8Dec (s : List UInt8) (i : Nat) : Nat :=
  if isUtf (s[i - 1]?.getD 0) then i - 1
  else if isUtf (s[i - 2]?.getD 0) then i - 2
  else if isUtf (s[i - 3]?.getD 0) then i - 3
  else i - 4

-- ---------------------------------------------------------------------------
-- Bytes of a character
-- ---------------------------------------------------------------------------

theorem toNat_or {x m : UInt32} {k a : Nat} (hm : m.toNat = 2 ^ k * a) (hx : x.toNat < 2 ^ k)
    (hbyte : x.toNat + m.toNat < 256) : (x ||| m).toUInt8.toNat = x.toNat + m.toNat := by
  have hor : (x ||| m).toNat = x.toNat + m.toNat := by
    rw [UInt32.toNat_or, Nat.or_comm, hm, ← Nat.two_pow_add_eq_or_of_lt hx, Nat.add_comm]
  rw [UInt32.toNat_toUInt8, hor, Nat.mod_eq_of_lt hbyte]

theorem toNat_low (x : UInt32) : (x &&& 0x3F).toNat = x.toNat % 64 := by
  rw [UInt32.toNat_and]
  exact Nat.and_two_pow_sub_one_eq_mod x.toNat 6

theorem toNat_tail (x : UInt32) : ((x &&& 0x3F) ||| 0x80).toUInt8.toNat = x.toNat % 64 + 128 := by
  have hlow := toNat_low x
  have hlt : x.toNat % 64 < 64 := Nat.mod_lt _ (by decide)
  rw [toNat_or (k := 7) (a := 1) rfl (by omega) (by rw [hlow]; change _ + 128 < _; omega), hlow]
  rfl

theorem toNat_shift (x : UInt32) {k : UInt32} (hk : k.toNat < 32) :
    (x >>> k).toNat = x.toNat / 2 ^ k.toNat := by
  rw [UInt32.toNat_shiftRight, Nat.mod_eq_of_lt hk, Nat.shiftRight_eq_div_pow]

theorem toNat_addByte (ch : UInt32) (b : UInt8) :
    ((ch <<< 6) + b.toUInt32).toNat = (ch.toNat * 64 + b.toNat) % 2 ^ 32 := by
  rw [UInt32.toNat_add, UInt32.toNat_shiftLeft, UInt8.toNat_toUInt32, Nat.shiftLeft_eq]
  change (ch.toNat * 64 % 2 ^ 32 + b.toNat) % 2 ^ 32 = _
  rw [Nat.mod_add_mod]

theorem isUtf_iff (b : UInt8) : isUtf b = true ↔ b.toNat < 128 ∨ 192 ≤ b.toNat := by
  have h : ∀ n : Fin 256, isUtf (UInt8.ofNat n) = true ↔ n.val < 128 ∨ 192 ≤ n.val := by
    decide +kernel
  simpa only [UInt8.ofNat_toNat] using h ⟨b.toNat, b.toNat_lt⟩

/-- A first byte and the bytes that continue it, as they stand for a character. -/
structure Sequence (ch : UInt32) (b : UInt8) (rest : List UInt8) : Prop where
  trailing : trailingBytesForUTF8 b = rest.length
  short : rest.length ≤ 3
  first : isUtf b = true
  more : ∀ x ∈ rest, isUtf x = false
  value : addBytes (b :: rest) - offsetsFromUTF8.getD rest.length 0 = ch
  zero : b = 0 ↔ ch = 0

theorem trailing_toNat (b : UInt8) : trailingBytesForUTF8 b =
    if b.toNat < 192 then 0 else if b.toNat < 224 then 1 else if b.toNat < 240 then 2
    else if b.toNat < 248 then 3 else if b.toNat < 252 then 4 else 5 := by
  simp only [trailingBytesForUTF8, UInt8.lt_iff_toNat_lt]
  rfl

section
variable {ch : UInt32}

theorem sequence_of_lead {b : UInt8} {rest : List UInt8} (hb : 192 ≤ b.toNat) (hch : 0 < ch.toNat)
    (htrail : trailingBytesForUTF8 b = rest.length) (hshort : rest.length ≤ 3)
    (hrest : ∀ x ∈ rest, ∃ n, x.toNat = n % 64 + 128)
    (hvalue : (addBytes (b :: rest) - offsetsFromUTF8.getD rest.length 0).toNat = ch.toNat) :
    Sequence ch b rest where
  trailing := htrail
  short := hshort
  first := (isUtf_iff b).mpr (.inr hb)
  more := by
    intro x hx
    obtain ⟨n, hn⟩ := hrest x hx
    rw [Bool.eq_false_iff, Ne, isUtf_iff]
    omega
  value := UInt32.toNat_inj.mp hvalue
  zero := by
    rw [← UInt8.toNat_inj, ← UInt32.toNat_inj]
    change _ = 0 ↔ _ = 0
    omega

theorem sequence_one (h : ch < 0x80) : Sequence ch ch.toUInt8 [] := by
  have hlt : ch.toNat < 128 := h
  have hb : ch.toUInt8.toNat = ch.toNat := by
    rw [UInt32.toNat_toUInt8, Nat.mod_eq_of_lt (by omega)]
  refine ⟨?_, by decide, (isUtf_iff _).mpr (.inl (hb ▸ hlt)), by simp, ?_, ?_⟩
  · rw [trailing_toNat, if_pos (by omega)]
    rfl
  · apply UInt32.toNat_inj.mp
    change (((0 : UInt32) <<< 6) + ch.toUInt8.toUInt32 - 0).toNat = _
    rw [UInt32.sub_zero, toNat_addByte, hb, UInt32.toNat_zero]
    omega
  · rw [← UInt8.toNat_inj, ← UInt32.toNat_inj, hb]
    rfl

theorem sequence_two (h₁ : ¬ ch < 0x80) (h : ch < 0x800) :
    Sequence ch ((ch >>> 6) ||| 0xC0).toUInt8 [((ch &&& 0x3F) ||| 0x80).toUInt8] := by
  have hge : 128 ≤ ch.toNat := Nat.le_of_not_lt h₁
  have hlt : ch.toNat < 2048 := h
  have hs : (ch >>> 6).toNat = ch.toNat / 64 := toNat_shift ch (by decide)
  have h0 : ((ch >>> 6) ||| 0xC0).toUInt8.toNat = ch.toNat / 64 + 192 := by
    rw [toNat_or (k := 6) (a := 3) rfl (by omega) (by rw [hs]; change _ + 192 < _; omega), hs]
    rfl
  have h1 := toNat_tail ch
  generalize ((ch >>> 6) ||| 0xC0).toUInt8 = b0 at *
  generalize ((ch &&& 0x3F) ||| 0x80).toUInt8 = b1 at *
  refine sequence_of_lead (by omega) (by omega) ?_ (by simp) ?_ ?_
  · rw [trailing_toNat, if_neg (by omega), if_pos (by omega)]
    rfl
  · simp only [List.mem_singleton, forall_eq]
    exact ⟨_, h1⟩
  · change ((((0 : UInt32) <<< 6) + b0.toUInt32) <<< 6 + b1.toUInt32 - 0x3080).toNat = _
    rw [UInt32.toNat_sub, toNat_addByte, toNat_addByte, h0, h1]
    change (2 ^ 32 - 0x3080 + ((0 * 64 + _) % 2 ^ 32 * 64 + _) % 2 ^ 32) % 2 ^ 32 = _
    omega

theorem sequence_three (h₂ : ¬ ch < 0x800) (h : ch < 0x10000) :
    Sequence ch ((ch >>> 12) ||| 0xE0).toUInt8
      [(((ch >>> 6) &&& 0x3F) ||| 0x80).toUInt8, ((ch &&& 0x3F) ||| 0x80).toUInt8] := by
  have hge : 0x800 ≤ ch.toNat := Nat.le_of_not_lt h₂
  have hlt : ch.toNat < 0x10000 := h
  have hs : (ch >>> 12).toNat = ch.toNat / 4096 := toNat_shift ch (by decide)
  have hs6 : (ch >>> 6).toNat = ch.toNat / 64 := toNat_shift ch (by decide)
  have h0 : ((ch >>> 12) ||| 0xE0).toUInt8.toNat = ch.toNat / 4096 + 224 := by
    rw [toNat_or (k := 5) (a := 7) rfl (by omega) (by rw [hs]; change _ + 224 < _; omega), hs]
    rfl
  have h1 := toNat_tail (ch >>> 6)
  have h2 := toNat_tail ch
  rw [hs6] at h1
  generalize ((ch >>> 12) ||| 0xE0).toUInt8 = b0 at *
  generalize (((ch >>> 6) &&& 0x3F) ||| 0x80).toUInt8 = b1 at *
  generalize ((ch &&& 0x3F) ||| 0x80).toUInt8 = b2 at *
  refine sequence_of_lead (by omega) (by omega) ?_ (by simp) ?_ ?_
  · rw [trailing_toNat, if_neg (by omega), if_neg (by omega), if_pos (by omega)]
    rfl
  · simp only [List.mem_cons, List.not_mem_nil, or_false, forall_eq_or_imp, forall_eq]
    exact ⟨⟨_, h1⟩, ⟨_, h2⟩⟩
  · change (((((0 : UInt32) <<< 6) + b0.toUInt32) <<< 6 + b1.toUInt32) <<< 6 + b2.toUInt32 -
      0xE2080).toNat = _
    rw [UInt32.toNat_sub, toNat_addByte, toNat_addByte, toNat_addByte, h0, h1, h2]
    change (2 ^ 32 - 0xE2080 + (((0 * 64 + _) % 2 ^ 32 * 64 + _) % 2 ^ 32 * 64 + _) % 2 ^ 32) %
      2 ^ 32 = _
    omega

theorem sequence_four (h₃ : ¬ ch < 0x10000) (h : ch < 0x110000) :
    Sequence ch ((ch >>> 18) ||| 0xF0).toUInt8
      [(((ch >>> 12) &&& 0x3F) ||| 0x80).toUInt8, (((ch >>> 6) &&& 0x3F) ||| 0x80).toUInt8,
        ((ch &&& 0x3F) ||| 0x80).toUInt8] := by
  have hge : 0x10000 ≤ ch.toNat := Nat.le_of_not_lt h₃
  have hlt : ch.toNat < 0x110000 := h
  have hs : (ch >>> 18).toNat = ch.toNat / 262144 := toNat_shift ch (by decide)
  have hs12 : (ch >>> 12).toNat = ch.toNat / 4096 := toNat_shift ch (by decide)
  have hs6 : (ch >>> 6).toNat = ch.toNat / 64 := toNat_shift ch (by decide)
  have h0 : ((ch >>> 18) ||| 0xF0).toUInt8.toNat = ch.toNat / 262144 + 240 := by
    rw [toNat_or (k := 4) (a := 15) rfl (by omega) (by rw [hs]; change _ + 240 < _; omega), hs]
    rfl
  have h1 := toNat_tail (ch >>> 12)
  have h2 := toNat_tail (ch >>> 6)
  have h3 := toNat_tail ch
  rw [hs12] at h1
  rw [hs6] at h2
  generalize ((ch >>> 18) ||| 0xF0).toUInt8 = b0 at *
  generalize (((ch >>> 12) &&& 0x3F) ||| 0x80).toUInt8 = b1 at *
  generalize (((ch >>> 6) &&& 0x3F) ||| 0x80).toUInt8 = b2 at *
  generalize ((ch &&& 0x3F) ||| 0x80).toUInt8 = b3 at *
  refine sequence_of_lead (by omega) (by omega) ?_ (by simp) ?_ ?_
  · rw [trailing_toNat, if_neg (by omega), if_neg (by omega), if_neg (by omega), if_pos (by omega)]
    rfl
  · simp only [List.mem_cons, List.not_mem_nil, or_false, forall_eq_or_imp, forall_eq]
    exact ⟨⟨_, h1⟩, ⟨_, h2⟩, ⟨_, h3⟩⟩
  · change ((((((0 : UInt32) <<< 6) + b0.toUInt32) <<< 6 + b1.toUInt32) <<< 6 + b2.toUInt32) <<< 6 +
      b3.toUInt32 - 0x3C82080).toNat = _
    rw [UInt32.toNat_sub, toNat_addByte, toNat_addByte, toNat_addByte, toNat_addByte, h0, h1, h2, h3]
    change (2 ^ 32 - 0x3C82080 + ((((0 * 64 + _) % 2 ^ 32 * 64 + _) % 2 ^ 32 * 64 + _) % 2 ^ 32 * 64 +
      _) % 2 ^ 32) % 2 ^ 32 = _
    omega

/-- What `u8_wc_toutf8` writes for a character. -/
theorem u8WcToutf8_sequence (h : ch < 0x110000) :
    ∃ b rest, u8WcToutf8 ch = b :: rest ∧ Sequence ch b rest := by
  rw [u8WcToutf8]
  split_ifs with h₁ h₂ h₃
  · exact ⟨_, _, rfl, sequence_one h₁⟩
  · exact ⟨_, _, rfl, sequence_two h₁ h₂⟩
  · exact ⟨_, _, rfl, sequence_three h₂ h₃⟩
  · exact ⟨_, _, rfl, sequence_four h₃ h⟩

theorem u8WcToutf8_eq_nil (h : ¬ ch < 0x110000) : u8WcToutf8 ch = [] := by
  have hge : 0x110000 ≤ ch.toNat := Nat.le_of_not_lt h
  have hne : ∀ m : UInt32, m.toNat ≤ 0x110000 → ¬ ch < m := fun m hm hlt => by
    have : ch.toNat < m.toNat := hlt
    omega
  rw [u8WcToutf8, if_neg (hne _ (by decide)), if_neg (hne _ (by decide)), if_neg (hne _ (by decide)),
    if_neg h]

end

-- ---------------------------------------------------------------------------
-- There and back
-- ---------------------------------------------------------------------------

def encode (src : List UInt32) : List UInt8 := src.flatMap u8WcToutf8

@[simp] theorem encode_nil : encode [] = [] := rfl

@[simp] theorem encode_cons (ch : UInt32) (src : List UInt32) :
    encode (ch :: src) = u8WcToutf8 ch ++ encode src := List.flatMap_cons

/-- As many of the characters as there is room for. -/
structure Written.Fits (sz : Nat) (src : List UInt32) (r : Written) : Prop where
  dest : r.dest = encode (src.take r.count)
  count : r.count ≤ src.length
  room : r.dest.length ≤ sz
  full : ∀ ch ∈ src[r.count]?, sz < r.dest.length + (u8WcToutf8 ch).length
  nul : r.nul = true ↔ r.count = src.length ∧ r.dest.length < sz

theorem u8Toutf8_fits (sz : Nat) (src : List UInt32) : (u8Toutf8 sz src).Fits sz src := by
  induction src generalizing sz with
  | nil => exact ⟨rfl, Nat.le_refl 0, Nat.zero_le sz, by simp, by simp [u8Toutf8]⟩
  | cons ch src ih =>
    rw [u8Toutf8]
    split_ifs with hroom
    · exact ⟨rfl, Nat.zero_le _, Nat.zero_le _, by simpa using hroom, by simp⟩
    · have h := ih (sz - (u8WcToutf8 ch).length)
      refine ⟨?_, Nat.succ_le_succ h.count, ?_, fun c hc => ?_, ?_⟩
      · simp [h.dest]
      · have := h.room
        simp only [List.length_append]
        omega
      · have := h.full c hc
        simp only [List.length_append]
        omega
      · have := h.nul
        simp only [List.length_append, List.length_cons]
        rw [this]
        omega

section
variable {ch : UInt32} {b : UInt8} {rest s : List UInt8}

theorem Sequence.ascii (h : Sequence ch b rest) (hb : b.toNat < 128) : ch.toNat = b.toNat := by
  have hnil : rest = [] := by
    rw [← List.length_eq_zero_iff, ← h.trailing, trailing_toNat, if_pos (by omega)]
  subst hnil
  rw [← h.value]
  change (((0 : UInt32) <<< 6) + b.toUInt32 - 0).toNat = _
  rw [UInt32.sub_zero, toNat_addByte, UInt32.toNat_zero]
  omega

theorem Sequence.first_of_ascii (h : Sequence ch b rest) (hb : u8WcToutf8 ch = b :: rest)
    (hch : ch.toNat < 128) : b.toNat = ch.toNat := by
  have hlt : ch < 0x80 := hch
  rw [u8WcToutf8, if_pos hlt] at hb
  refine (h.ascii ?_).symm
  rw [← (List.cons.inj hb).1, UInt32.toNat_toUInt8]
  omega

theorem Sequence.u8Toucs (h : Sequence ch b rest) {srcsz : Srcsz}
    (hdone : srcsz = .terminated → ch ≠ 0) (sz : Nat) :
    u8Toucs srcsz (sz + 1) (b :: rest ++ s) = ch :: u8Toucs srcsz sz s := by
  have hd : srcsz.done b (rest ++ s) = false := by
    cases srcsz with
    | terminated => simpa [Srcsz.done, h.zero] using hdone rfl
    | bytes => simp [Srcsz.done, h.trailing]
  have htake : (b :: (rest ++ s)).take (rest.length + 1) = b :: rest := by simp
  have hdrop : (b :: (rest ++ s)).drop (rest.length + 1) = s := by simp
  rw [List.cons_append, Utf8.u8Toucs, hd, h.trailing]
  simp only [Bool.false_eq_true, if_false, if_pos h.short]
  rw [htake, hdrop, h.value]

theorem u8Toucs_encode (sz : Nat) (src : List UInt32) :
    u8Toucs .bytes sz (encode src) = (src.filter (· < 0x110000)).take sz := by
  induction src generalizing sz with
  | nil => cases sz <;> rfl
  | cons ch src ih =>
    by_cases hch : ch < 0x110000
    · obtain ⟨b, rest, hb, hseq⟩ := u8WcToutf8_sequence hch
      rw [encode_cons, hb, List.filter_cons_of_pos (by simpa using hch)]
      cases sz with
      | zero => rfl
      | succ sz => rw [hseq.u8Toucs (fun h => by cases h), ih, List.take_succ_cons]
    · rw [encode_cons, u8WcToutf8_eq_nil hch, List.nil_append, ih,
        List.filter_cons_of_neg (by simpa using hch)]

theorem u8Toucs_encode_nul (sz : Nat) (src : List UInt32) (junk : List UInt8) :
    u8Toucs .terminated sz (encode src ++ 0 :: junk) =
      ((src.filter (· < 0x110000)).takeWhile (· ≠ 0)).take sz := by
  induction src generalizing sz junk with
  | nil => cases sz <;> rfl
  | cons ch src ih =>
    by_cases hch : ch < 0x110000
    · obtain ⟨b, rest, hb, hseq⟩ := u8WcToutf8_sequence hch
      rw [encode_cons, hb, List.filter_cons_of_pos (by simpa using hch), List.append_assoc]
      cases sz with
      | zero => rfl
      | succ sz =>
        by_cases hz : ch = 0
        · rw [List.takeWhile_cons_of_neg (by simpa using hz), List.take_nil, List.cons_append,
            hseq.zero.mpr hz]
          rfl
        · rw [hseq.u8Toucs (fun _ => hz), ih, List.takeWhile_cons_of_pos (by simpa using hz),
            List.take_succ_cons]
    · rw [encode_cons, u8WcToutf8_eq_nil hch, List.nil_append, ih,
        List.filter_cons_of_neg (by simpa using hch)]

/-- Whatever the two buffers hold, `u8_toutf8` writes as many characters as fit, and
`u8_toucs` reads these back, up to a NUL if it looks for one. -/
theorem u8Toutf8_u8Toucs (sz n : Nat) (src : List UInt32) (junk : List UInt8) :
    (u8Toutf8 sz src).Fits sz src ∧
      u8Toucs .bytes n (u8Toutf8 sz src).dest =
        ((src.take (u8Toutf8 sz src).count).filter (· < 0x110000)).take n ∧
      u8Toucs .terminated n ((u8Toutf8 sz src).dest ++ 0 :: junk) =
        (((src.take (u8Toutf8 sz src).count).filter (· < 0x110000)).takeWhile (· ≠ 0)).take n := by
  have h := u8Toutf8_fits sz src
  refine ⟨h, ?_, ?_⟩
  · rw [h.dest, u8Toucs_encode]
  · rw [h.dest, u8Toucs_encode_nul]

end

-- ---------------------------------------------------------------------------
-- Walking along a string
-- ---------------------------------------------------------------------------

section
variable {ch : UInt32} {b : UInt8} {rest s : List UInt8}

theorem Sequence.u8Inc (h : Sequence ch b rest) (hch : ch ≠ 0)
    (hs : ∀ x ∈ s.head?, isUtf x = true) : u8Inc (b :: rest ++ s) = rest.length + 1 := by
  have hshort : (b :: rest).length ≤ 4 := Nat.succ_le_succ h.short
  let c : CrfDataNoSeg.Character := ⟨b :: rest, Nat.succ_pos _, hshort⟩
  have hc : c.IsUtf8 := ⟨b, rest, rfl, fun hb => hch (h.zero.mp hb), h.first, h.more⟩
  exact CrfDataNoSeg.u8Inc_append hc hs

theorem Sequence.u8Nextchar (h : Sequence ch b rest) (hs : ∀ x ∈ s.head?, isUtf x = true) :
    u8Nextchar (b :: rest ++ s) = (ch, s) := by
  have hrest : ∀ x ∈ rest, (x ≠ 0 && !isUtf x) = true := by
    intro x hx
    have hmore := h.more x hx
    have hx0 : x ≠ 0 := by
      rintro rfl
      exact absurd hmore (by decide)
    simp [hmore, hx0]
  have hstop : s.takeWhile (fun x => x ≠ 0 && !isUtf x) = [] := by
    cases s with
    | nil => rfl
    | cons x s => exact List.takeWhile_cons_of_neg (by simp [hs x rfl])
  rw [List.cons_append, Utf8.u8Nextchar]
  simp only [List.takeWhile_append_of_pos hrest, hstop, List.append_nil]
  rw [h.value, List.drop_left]

theorem Sequence.u8Dec (h : Sequence ch b rest) (before : List UInt8) :
    u8Dec (before ++ (b :: rest ++ s)) (before.length + (rest.length + 1)) = before.length := by
  rw [Utf8.u8Dec]
  match rest, h.more, h.short with
  | [], _, _ => simp [h.first]
  | [x], hmore, _ => simp [hmore x, h.first]
  | [x, y], hmore, _ => simp [hmore x, hmore y, h.first]
  | [x, y, z], hmore, _ => simp [hmore x, hmore y, hmore z]
  | _ :: _ :: _ :: _ :: _, _, hshort =>
    simp only [List.length_cons] at hshort
    omega

end

def Characters (cs : List UInt32) : Prop := ∀ ch ∈ cs, ch ≠ 0 ∧ ch < 0x110000

section
variable {cs : List UInt32} {junk : List UInt8}

theorem head_encode (hcs : Characters cs) :
    ∀ x ∈ (encode cs ++ 0 :: junk).head?, isUtf x = true := by
  cases cs with
  | nil => simp [isUtf]
  | cons ch cs =>
    obtain ⟨b, rest, hb, hseq⟩ := u8WcToutf8_sequence (hcs ch List.mem_cons_self).2
    simp [hb, hseq.first]

theorem Characters.cons {ch : UInt32} (hcs : Characters (ch :: cs)) :
    ∃ b rest, u8WcToutf8 ch = b :: rest ∧ Sequence ch b rest ∧ ch ≠ 0 ∧ b ≠ 0 ∧ Characters cs := by
  have hch := hcs ch List.mem_cons_self
  obtain ⟨b, rest, hb, hseq⟩ := u8WcToutf8_sequence hch.2
  exact ⟨b, rest, hb, hseq, hch.1, fun h => hch.1 (hseq.zero.mp h),
    fun c hc => hcs c (List.mem_cons_of_mem _ hc)⟩

theorem u8Offset_encode (hcs : Characters cs) (k : Nat) :
    u8Offset (encode cs ++ 0 :: junk) k = (encode (cs.take k)).length := by
  induction cs generalizing k with
  | nil => cases k <;> simp [u8Offset]
  | cons ch cs ih =>
    cases k with
    | zero => rw [u8Offset.eq_def]; simp
    | succ k =>
      obtain ⟨b, rest, hb, hseq, hch, hb0, hcs'⟩ := hcs.cons
      have hinc := hseq.u8Inc hch (@head_encode cs junk hcs')
      rw [encode_cons, hb, List.append_assoc, List.cons_append, u8Offset, if_neg hb0,
        ← List.cons_append, hinc, ← List.length_cons, List.drop_left, ih hcs',
        List.take_succ_cons, encode_cons, hb, List.length_append]

theorem u8Charnum_encode (hcs : Characters cs) (k : Nat) :
    u8Charnum (encode cs ++ 0 :: junk) (encode (cs.take k)).length = min k cs.length := by
  induction cs generalizing k with
  | nil => simp [u8Charnum]
  | cons ch cs ih =>
    obtain ⟨b, rest, hb, hseq, hch, hb0, hcs'⟩ := hcs.cons
    rw [encode_cons, hb, List.append_assoc, List.cons_append, u8Charnum]
    cases k with
    | zero => simp
    | succ k =>
      have hinc := hseq.u8Inc hch (@head_encode cs junk hcs')
      rw [List.take_succ_cons, encode_cons, hb, List.length_append, if_pos ⟨by simp, hb0⟩,
        ← List.cons_append, hinc, ← List.length_cons, List.drop_left, Nat.add_sub_cancel_left,
        ih hcs', List.length_cons, Nat.succ_min_succ]

theorem u8Strlen_encode (hcs : Characters cs) (hjunk : ∀ x ∈ junk.head?, isUtf x = true) :
    u8Strlen (encode cs ++ 0 :: junk) = cs.length := by
  induction cs with
  | nil =>
    have hnul : u8Nextchar ([0] ++ junk) = (0, junk) :=
      Sequence.u8Nextchar (sequence_one (by decide)) hjunk
    rw [encode_nil, List.nil_append, u8Strlen, if_neg]
    · rfl
    · exact fun h => h (congrArg Prod.fst hnul)
  | cons ch cs ih =>
    obtain ⟨b, rest, hb, hseq, hch, -, hcs'⟩ := hcs.cons
    have hnext := hseq.u8Nextchar (@head_encode cs junk hcs')
    rw [encode_cons, hb, List.append_assoc, List.cons_append, u8Strlen, ← List.cons_append, hnext,
      if_pos hch, ih hcs', List.length_cons]

theorem encode_split (cs : List UInt32) (k : Nat) :
    encode cs = encode (cs.take k) ++ encode (cs.drop k) := by
  rw [encode, encode, encode, ← List.flatMap_append, List.take_append_drop]

theorem drop_encode (k : Nat) : (encode cs ++ 0 :: junk).drop (encode (cs.take k)).length =
    encode (cs.drop k) ++ 0 :: junk := by
  rw [encode_split cs k, List.append_assoc, List.drop_left]

theorem Characters.at {k : Nat} {ch : UInt32} (hcs : Characters cs) (hk : cs[k]? = some ch) :
    ∃ b rest, u8WcToutf8 ch = b :: rest ∧ Sequence ch b rest ∧ cs.drop k = ch :: cs.drop (k + 1) ∧
      Characters (cs.drop (k + 1)) := by
  obtain ⟨hlt, hget⟩ := List.getElem?_eq_some_iff.mp hk
  obtain ⟨b, rest, hb, hseq⟩ := u8WcToutf8_sequence (hcs ch (List.mem_of_getElem? hk)).2
  exact ⟨b, rest, hb, hseq, by rw [List.drop_eq_getElem_cons hlt, hget],
    fun c hc => hcs c (List.mem_of_mem_drop hc)⟩

/-- From the offset of a character `u8_nextchar` reads it and goes to the next one, and
`u8_dec` comes back. -/
theorem u8Nextchar_encode (hcs : Characters cs) {k : Nat} {ch : UInt32} (hk : cs[k]? = some ch) :
    u8Nextchar ((encode cs ++ 0 :: junk).drop (encode (cs.take k)).length) =
        (ch, (encode cs ++ 0 :: junk).drop (encode (cs.take (k + 1))).length) ∧
      u8Dec (encode cs ++ 0 :: junk) (encode (cs.take (k + 1))).length =
        (encode (cs.take k)).length := by
  obtain ⟨b, rest, hb, hseq, hdrop, hcs'⟩ := hcs.at hk
  constructor
  · rw [drop_encode, drop_encode, hdrop, encode_cons, hb, List.append_assoc]
    exact hseq.u8Nextchar (head_encode hcs')
  · have hs : encode cs ++ 0 :: junk =
        encode (cs.take k) ++ (b :: rest ++ (encode (cs.drop (k + 1)) ++ 0 :: junk)) := by
      rw [encode_split cs k, hdrop, encode_cons, hb, List.append_assoc, List.append_assoc]
    have hlen : (encode (cs.take (k + 1))).length =
        (encode (cs.take k)).length + (rest.length + 1) := by
      rw [List.take_add_one, hk, encode, List.flatMap_append, List.length_append]
      simp [encode, hb]
    rw [hs, hlen]
    exact hseq.u8Dec _

/-- Offsets and numbers of characters name the same places of a string, and the string
has as many characters as were written. `u8_nextchar` looks at the byte behind the NUL. -/
theorem positions (hcs : Characters cs) (junk : List UInt8) :
    (∀ k, u8Charnum (encode cs ++ 0 :: junk) (u8Offset (encode cs ++ 0 :: junk) k) =
        min k cs.length) ∧
      (∀ k ch, cs[k]? = some ch →
        u8Nextchar ((encode cs ++ 0 :: junk).drop (u8Offset (encode cs ++ 0 :: junk) k)) =
            (ch, (encode cs ++ 0 :: junk).drop (u8Offset (encode cs ++ 0 :: junk) (k + 1))) ∧
          u8Dec (encode cs ++ 0 :: junk) (u8Offset (encode cs ++ 0 :: junk) (k + 1)) =
            u8Offset (encode cs ++ 0 :: junk) k) ∧
      ((∀ x ∈ junk.head?, isUtf x = true) → u8Strlen (encode cs ++ 0 :: junk) = cs.length) := by
  refine ⟨fun k => ?_, fun k ch hk => ?_, u8Strlen_encode hcs⟩
  · rw [u8Offset_encode hcs, u8Charnum_encode hcs]
  · rw [u8Offset_encode hcs, u8Offset_encode hcs]
    exact u8Nextchar_encode hcs hk

end

/-- The letter `A` and U+4E2D. -/
theorem positions_two :
    Characters [0x41, 0x4E2D] ∧
      (∀ k, u8Charnum (encode [0x41, 0x4E2D] ++ [0]) (u8Offset (encode [0x41, 0x4E2D] ++ [0]) k) =
        min k 2) ∧
      u8Strlen (encode [0x41, 0x4E2D] ++ [0]) = 2 := by
  have hcs : Characters [0x41, 0x4E2D] := by
    intro ch hch
    rcases List.mem_cons.mp hch with rfl | hch
    · decide
    · obtain rfl := List.mem_singleton.mp hch
      decide
  obtain ⟨hnum, -, hlen⟩ := positions hcs []
  exact ⟨hcs, hnum, hlen (by simp)⟩

end TextMining.Utf8
