import TextMining.JenkinsHash.Blocks

/-!
# What the hashes depend on

A hash is a function of the bytes of its key: neither the machine, nor the address
of the key, nor what lies behind it counts. Nothing of the key gets lost on the
way to the registers, for mixing is reversible.
-/

namespace TextMining.JenkinsHash

variable {m m' : Machine} {mem mem' : Memory} {o : ByteOrder} {key key' length n : Nat}

theorem bytes_eq_iff :
    bytes mem key n = bytes mem' key' n ↔ ∀ i < n, mem (key + i) = mem' (key' + i) := by
  constructor
  · intro h i hi
    have hget := congrArg (·[i]?) h
    simpa [bytes, hi] using hget
  · intro h
    apply List.ext_getElem (by simp)
    intro i hi _
    simpa [bytes] using h i (by simpa using hi)

def holding (key : Nat) (bs : List UInt8) : Memory := fun p =>
  if p < key then 0 else bs[p - key]?.getD 0

/-- `hashlittle(s, strlen(s), 1)`. -/
def hashString (s : List UInt8) : UInt32 :=
  hashlittle ⟨.little, true⟩ (holding 0 s) 0 s.length 1

theorem hash_same_key (m m' : Machine) (mem mem' : Memory) (key key' length : Nat)
    (initval pb : UInt32) (hkey : ∀ i < length, mem (key + i) = mem' (key' + i)) :
    hashlittle m mem key length initval = hashlittle m' mem' key' length initval ∧
      hashlittle2 m mem key length initval pb = hashlittle2 m' mem' key' length initval pb ∧
      hashbig m mem key length initval = hashbig m' mem' key' length initval := by
  have hbytes := bytes_eq_iff.mpr hkey
  refine ⟨?_, ?_, ?_⟩
  · simp only [hashlittle, hashlittleRegs_eq, hbytes]
  · simp only [hashlittle2, hashlittleRegs_eq, hbytes]
  · simp only [hashbig, hashbigRegs_eq, hbytes]

/-- A key of three bytes, read a word at a time in one place and a byte at a time
in the other, with other bytes behind it. -/
theorem hash_same_key_moved :
    hashlittle ⟨.little, true⟩ (holding 4 [97, 98, 99]) 4 3 1 =
        hashlittle ⟨.big, false⟩ (holding 5 [97, 98, 99, 100]) 5 3 1 ∧
      hashlittle2 ⟨.little, true⟩ (holding 4 [97, 98, 99]) 4 3 1 0 =
        hashlittle2 ⟨.big, false⟩ (holding 5 [97, 98, 99, 100]) 5 3 1 0 ∧
      hashbig ⟨.little, true⟩ (holding 4 [97, 98, 99]) 4 3 1 =
        hashbig ⟨.big, false⟩ (holding 5 [97, 98, 99, 100]) 5 3 1 :=
  hash_same_key _ _ _ _ _ _ _ _ _ (by decide)

-- ---------------------------------------------------------------------------
-- Words instead of bytes
-- ---------------------------------------------------------------------------

theorem toUInt32_shiftLeft (length : Nat) :
    length.toUInt32 <<< (2 : UInt32) = (length * 4).toUInt32 ∧
      (length <<< (2 : Nat)).toUInt32 = (length * 4).toUInt32 := by
  constructor
  · apply UInt32.toNat_inj.mp
    simp [Nat.shiftLeft_eq]
  · rw [Nat.shiftLeft_eq]

/-- Hashing the words of a key is hashing its bytes, in the byte order of the
machine, and the second seed changes nothing when it is zero. -/
theorem hashword_same_key (m : Machine) (mem : Memory) (k length : Nat) (initval : UInt32) :
    hashword m mem k length initval =
        (if m.byteOrder = .little then hashlittle m mem k (length * 4) initval
          else hashbig m mem k (length * 4) initval) ∧
      (hashword2 m mem k length initval 0).1 = hashword m mem k length initval ∧
      (hashlittle2 m mem k length initval 0).1 = hashlittle m mem k length initval := by
  obtain ⟨hword, hword2⟩ := toUInt32_shiftLeft length
  refine ⟨?_, ?_, ?_⟩
  · cases ho : m.byteOrder with
    | little => simp only [hashword, hashwordRegs_eq, hword, ho, hashlittle, hashlittleRegs_eq, if_true]
    | big => simp [hashword, hashwordRegs_eq, hword, ho, hashbig, hashbigRegs_eq]
  · simp only [hashword, hashword2, hword, hword2, UInt32.add_zero]
  · simp only [hashlittle, hashlittle2, UInt32.add_zero]

-- ---------------------------------------------------------------------------
-- Nothing gets lost
-- ---------------------------------------------------------------------------

theorem mixLine_inj {k x x' y z z' : UInt32} (h : mixLine k x y z = mixLine k x' y z') :
    x = x' ∧ z = z' := by
  obtain ⟨hx, hz⟩ := Prod.mk.inj h
  obtain rfl := (UInt32.add_left_inj y).mp hz
  exact ⟨(UInt32.sub_left_inj z).mp ((UInt32.xor_left_inj _).mp hx), rfl⟩

theorem finalLine_inj {k x x' y : UInt32} (h : finalLine k x y = finalLine k x' y) : x = x' :=
  (UInt32.xor_left_inj _).mp ((UInt32.sub_left_inj _).mp h)

theorem mixA_injective (k : UInt32) : Function.Injective (mixA k) := by
  rintro ⟨a, b, c⟩ ⟨a', b', c'⟩ h
  injection h with hx hy hz
  cases (hy : b = b')
  obtain ⟨rfl, rfl⟩ := mixLine_inj (Prod.ext hx hz)
  rfl

theorem mixB_injective (k : UInt32) : Function.Injective (mixB k) := by
  rintro ⟨a, b, c⟩ ⟨a', b', c'⟩ h
  injection h with hz hx hy
  cases (hy : c = c')
  obtain ⟨rfl, rfl⟩ := mixLine_inj (Prod.ext hx hz)
  rfl

theorem mixC_injective (k : UInt32) : Function.Injective (mixC k) := by
  rintro ⟨a, b, c⟩ ⟨a', b', c'⟩ h
  injection h with hy hz hx
  cases (hy : a = a')
  obtain ⟨rfl, rfl⟩ := mixLine_inj (Prod.ext hx hz)
  rfl

theorem mix_injective : Function.Injective mix :=
  (mixC_injective 4).comp ((mixB_injective 19).comp ((mixA_injective 16).comp
    ((mixC_injective 8).comp ((mixB_injective 6).comp (mixA_injective 4)))))

theorem finalA_injective (k : UInt32) : Function.Injective (finalA k) := by
  rintro ⟨a, b, c⟩ ⟨a', b', c'⟩ h
  injection h with hx hb hc
  cases hb
  cases hc
  cases (finalLine_inj hx : a = a')
  rfl

theorem finalB_injective (k : UInt32) : Function.Injective (finalB k) := by
  rintro ⟨a, b, c⟩ ⟨a', b', c'⟩ h
  injection h with ha hx hc
  cases ha
  cases hc
  cases (finalLine_inj hx : b = b')
  rfl

theorem finalC_injective (k : UInt32) : Function.Injective (finalC k) := by
  rintro ⟨a, b, c⟩ ⟨a', b', c'⟩ h
  injection h with ha hb hx
  cases ha
  cases hb
  cases (finalLine_inj hx : c = c')
  rfl

theorem final_injective : Function.Injective final :=
  (finalC_injective 24).comp ((finalB_injective 14).comp ((finalA_injective 4).comp
    ((finalC_injective 16).comp ((finalB_injective 25).comp ((finalA_injective 11).comp
      (finalC_injective 14))))))

theorem word_inj {xs ys : List UInt8} (hlen : xs.length = ys.length) (hle : xs.length ≤ 4)
    (h : word o xs = word o ys) : xs = ys := by
  have h := congrArg UInt32.toNat h
  match xs, ys, hlen, hle with
  | [], [], _, _ => rfl
  | [a], [b], _, _ =>
    have ha := a.toNat_lt
    have hb := b.toNat_lt
    cases o <;> simp [word, shift, Nat.shiftLeft_eq] at h <;> simp [← UInt8.toNat_inj] <;> omega
  | [a₀, a₁], [b₀, b₁], _, _ =>
    have ha₀ := a₀.toNat_lt
    have ha₁ := a₁.toNat_lt
    have hb₀ := b₀.toNat_lt
    have hb₁ := b₁.toNat_lt
    cases o <;> simp [word, shift, Nat.shiftLeft_eq] at h <;> simp [← UInt8.toNat_inj] <;> omega
  | [a₀, a₁, a₂], [b₀, b₁, b₂], _, _ =>
    have ha₀ := a₀.toNat_lt
    have ha₁ := a₁.toNat_lt
    have ha₂ := a₂.toNat_lt
    have hb₀ := b₀.toNat_lt
    have hb₁ := b₁.toNat_lt
    have hb₂ := b₂.toNat_lt
    cases o <;> simp [word, shift, Nat.shiftLeft_eq] at h <;> simp [← UInt8.toNat_inj] <;> omega
  | [a₀, a₁, a₂, a₃], [b₀, b₁, b₂, b₃], _, _ =>
    have ha₀ := a₀.toNat_lt
    have ha₁ := a₁.toNat_lt
    have ha₂ := a₂.toNat_lt
    have ha₃ := a₃.toNat_lt
    have hb₀ := b₀.toNat_lt
    have hb₁ := b₁.toNat_lt
    have hb₂ := b₂.toNat_lt
    have hb₃ := b₃.toNat_lt
    cases o <;> simp [word, shift, Nat.shiftLeft_eq] at h <;> simp [← UInt8.toNat_inj] <;> omega

theorem absorb_inj {r r' : Regs} {xs ys : List UInt8} (h : absorb o r xs = absorb o r' ys) :
    r.a + word o (xs.take 4) = r'.a + word o (ys.take 4) ∧
      r.b + word o ((xs.drop 4).take 4) = r'.b + word o ((ys.drop 4).take 4) ∧
      r.c + word o (xs.drop 8) = r'.c + word o (ys.drop 8) :=
  Regs.mk.inj h

theorem reversible_lookup3 (o : ByteOrder) : (lookup3 o).Reversible where
  mix := mix_injective
  finish := final_injective
  absorb_state := by
    rintro x ⟨a, b, c⟩ ⟨a', b', c'⟩ h
    obtain ⟨ha, hb, hc⟩ := absorb_inj h
    cases ((UInt32.add_left_inj _).mp ha : a = a')
    cases ((UInt32.add_left_inj _).mp hb : b = b')
    cases ((UInt32.add_left_inj _).mp hc : c = c')
    rfl
  absorb_block := by
    intro r x y hlen hle h
    obtain ⟨ha, hb, hc⟩ := absorb_inj h
    have hsize : x.length ≤ 12 := hle
    have h₀ := word_inj (by simp [hlen]) (by simp) ((UInt32.add_right_inj _).mp ha)
    have h₁ := word_inj (by simp [hlen]) (by simp) ((UInt32.add_right_inj _).mp hb)
    have h₂ := word_inj (by simp [hlen]) (by simp; omega) ((UInt32.add_right_inj _).mp hc)
    rw [← List.take_append_drop 4 x, ← List.take_append_drop 4 y, h₀,
      ← List.take_append_drop 4 (x.drop 4), ← List.take_append_drop 4 (y.drop 4), h₁,
      List.drop_drop, List.drop_drop, h₂]

/-- The registers that a hash ends with tell the seeds, and they tell the keys
apart that differ in no more than one block. -/
theorem hashlittleRegs_reversible (m m' : Machine) (mem mem' : Memory) (key key' length n : Nat)
    (r r' : Regs) :
    (hashlittleRegs m mem key length r = hashlittleRegs m mem key length r' → r = r') ∧
      ((∀ i < length, i / 12 ≠ n → mem (key + i) = mem' (key' + i)) →
        hashlittleRegs m mem key length r = hashlittleRegs m' mem' key' length r →
        ∀ i < length, mem (key + i) = mem' (key' + i)) := by
  simp only [hashlittleRegs_eq]
  refine ⟨(reversible_lookup3 .little).run_inj, fun hout heq => ?_⟩
  -- the bytes before the block, in it and behind it
  obtain ⟨before, l, rest, rfl, hbefore, hl, hfull⟩ : ∃ before l rest,
      length = before + (l + rest) ∧ (before = 12 * n ∨ l = 0 ∧ rest = 0 ∧ before ≤ 12 * n) ∧
        l ≤ 12 ∧ (l = 12 ∨ rest = 0) :=
    ⟨min (12 * n) length, min 12 (length - 12 * n), length - 12 * n - 12, by omega, by omega,
      by omega, by omega⟩
  have hpre : bytes mem key before = bytes mem' key' before :=
    bytes_eq_iff.mpr fun i hi => hout i (by omega) (by omega)
  have hpost : bytes mem (key + before + l) rest = bytes mem' (key' + before + l) rest := by
    refine bytes_eq_iff.mpr fun i hi => ?_
    have hi := hout (before + l + i) (by omega) (by omega)
    simpa [Nat.add_assoc] using hi
  have hblock : bytes mem (key + before) l = bytes mem' (key' + before) l := by
    rcases hbefore with rfl | ⟨rfl, -, -⟩
    · rw [bytes_add, bytes_add, bytes_add, bytes_add, hpre, hpost] at heq
      refine (reversible_lookup3 .little).run_block_inj ?_ (by simp)
        (by rw [length_bytes]; exact hl) ?_ heq
      · exact ⟨n, length_bytes⟩
      · exact hfull.imp length_bytes.trans bytes_eq_nil.mpr
    · rfl
  apply bytes_eq_iff.mp
  rw [bytes_add, bytes_add, bytes_add, bytes_add, hpre, hblock, hpost]

end TextMining.JenkinsHash
