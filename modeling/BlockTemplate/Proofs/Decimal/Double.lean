import BlockTemplate.Decimal.Basic

/-! A finite double is packed from its sign, mantissa and exponent. -/
namespace BlockTemplate.Decimal
open Float.Model Float.Model.UnpackedFloat

namespace Binary

/-- The parts that finite doubles have: 53 bits of mantissa, fewer only at the least exponent. -/
structure Canonical (b : Binary) : Prop where
  mantissa : b.mantissa < 2 * leadingBit
  low : -1074 ≤ b.exponent
  high : b.exponent ≤ 971
  normal : leadingBit ≤ b.mantissa ∨ b.exponent = -1074

def sign (b : Binary) : Sign := if b.negative then .negative else .positive

def unpacked (b : Binary) : UnpackedFloat :=
  if h : b.mantissa = 0 then .zero b.sign
  else .finite b.sign b.mantissa b.exponent (Nat.pos_of_ne_zero h)

theorem finite_eq_unpacked {b : Binary} {s : Sign} {m : Nat} {e : Int} {h : 0 < m}
    (hs : s = b.sign) (hm : m = b.mantissa) (he : e = b.exponent) :
    UnpackedFloat.finite s m e h = b.unpacked := by
  subst hs hm he
  rw [unpacked, dif_neg (Nat.ne_of_gt h)]

theorem isFinite_unpacked (b : Binary) : b.unpacked.isFinite = true := by
  by_cases h : b.mantissa = 0
  · rw [unpacked, dif_pos h]
    rfl
  · rw [unpacked, dif_neg h]
    rfl

/-- The double with the given parts. -/
def toFloat (b : Binary) : Float := .ofModel (.pack b.unpacked)

/-- The exponent as it is stored. -/
def power (b : Binary) : Nat := if b.mantissa < leadingBit then 0 else (b.exponent + 1075).toNat

/-- The parts that a word of 64 bits stores. -/
def ofWord (n : Nat) : Binary where
  negative := n / 0x8000000000000000 == 1
  mantissa := if n / leadingBit % 2048 = 0 then n % leadingBit else n % leadingBit + leadingBit
  exponent :=
    (if n / leadingBit % 2048 = 0 then 1 else ((n / leadingBit % 2048 : Nat) : Int)) - 1075

end Binary

section Fields
variable (bits : BitVec Format.binary64.numBits)

theorem toNat_unpackMantissa : (unpackMantissa bits).toNat = bits.toNat % leadingBit := by
  simp [unpackMantissa, leadingBit]

theorem toNat_unpackExponent : (unpackExponent bits).toNat = bits.toNat / leadingBit % 2048 := by
  simp [unpackExponent, leadingBit, Nat.shiftRight_eq_div_pow]

theorem toNat_unpackSign : (unpackSign bits).toNat = bits.toNat / 0x8000000000000000 := by
  have hbits : bits.toNat < 0x10000000000000000 := bits.isLt
  have hextract : (unpackSign bits).toNat = (bits.extractLsb 63 63).toNat := rfl
  rw [hextract, BitVec.extractLsb_toNat, Nat.shiftRight_eq_div_pow]
  omega

/-- Infinities and what is no number have the greatest exponent. -/
theorem unpackExponent_eq_neg_one :
    unpackExponent bits = -1#_ ↔ bits.toNat / leadingBit % 2048 = 2047 := by
  rw [← BitVec.toNat_inj, toNat_unpackExponent]
  rfl

theorem unpackExponent_eq_zero :
    unpackExponent bits = 0#_ ↔ bits.toNat / leadingBit % 2048 = 0 := by
  rw [← BitVec.toNat_inj, toNat_unpackExponent]
  rfl

theorem unpackMantissa_eq_zero : unpackMantissa bits = 0#_ ↔ bits.toNat % leadingBit = 0 := by
  rw [← BitVec.toNat_inj, toNat_unpackMantissa]
  rfl

theorem toNat_withLeadingBit :
    (1#1 ++ unpackMantissa bits).toNat = bits.toNat % leadingBit + leadingBit := by
  have hm := (unpackMantissa bits).isLt
  rw [BitVec.toNat_append, ← Nat.shiftLeft_add_eq_or_of_lt hm, toNat_unpackMantissa]
  simp [leadingBit, Nat.add_comm]

theorem ofBitVec_unpackSign :
    Sign.ofBitVec (unpackSign bits) = (Binary.ofWord bits.toNat).sign := by
  have hbits : bits.toNat < 0x10000000000000000 := bits.isLt
  have hzero : unpackSign bits = 0#1 ↔ bits.toNat / 0x8000000000000000 = 0 := by
    rw [← BitVec.toNat_inj, toNat_unpackSign]
    rfl
  by_cases h : bits.toNat / 0x8000000000000000 = 0
  · simp [Sign.ofBitVec, Binary.sign, Binary.ofWord, hzero, h]
  · have hone : bits.toNat / 0x8000000000000000 = 1 := by omega
    simp [Sign.ofBitVec, Binary.sign, Binary.ofWord, hzero, hone]

theorem unpack_eq_unpacked (h : bits.toNat / leadingBit % 2048 ≠ 2047) :
    unpack .binary64 bits = (Binary.ofWord bits.toNat).unpacked := by
  have hones : ¬ unpackExponent bits = -1#_ := fun he => h ((unpackExponent_eq_neg_one bits).mp he)
  have hzero := unpackExponent_eq_zero bits
  have hm := unpackMantissa_eq_zero bits
  unfold UnpackedFloat.unpack
  dsimp only
  rw [if_neg hones]
  by_cases hp : bits.toNat / leadingBit % 2048 = 0
  · rw [if_pos (hzero.mpr hp)]
    by_cases hf : bits.toNat % leadingBit = 0
    · have hmantissa : (Binary.ofWord bits.toNat).mantissa = 0 := by simp [Binary.ofWord, hp, hf]
      rw [dif_pos (hm.mpr hf), ofBitVec_unpackSign, Binary.unpacked, dif_pos hmantissa]
    · have hmantissa : (Binary.ofWord bits.toNat).mantissa = bits.toNat % leadingBit := by
        simp [Binary.ofWord, hp]
      have hexponent : (Binary.ofWord bits.toNat).exponent = -1074 := by simp [Binary.ofWord, hp]
      rw [dif_neg (fun he => hf (hm.mp he))]
      refine Binary.finite_eq_unpacked (ofBitVec_unpackSign bits) ?_ ?_
      · rw [toNat_unpackMantissa, hmantissa]
      · rw [toNat_unpackExponent, hp, hexponent]
        rfl
  · rw [if_neg (fun he => hp (hzero.mp he))]
    have hmantissa : (Binary.ofWord bits.toNat).mantissa =
        bits.toNat % leadingBit + leadingBit := by simp [Binary.ofWord, hp]
    have hexponent : (Binary.ofWord bits.toNat).exponent =
        (bits.toNat / leadingBit % 2048 : Nat) - 1075 := by simp [Binary.ofWord, hp]
    refine Binary.finite_eq_unpacked (ofBitVec_unpackSign bits) ?_ ?_
    · rw [toNat_withLeadingBit, hmantissa]
    · rw [toNat_unpackExponent, hexponent]
      rfl

theorem isFinite_unpack :
    (unpack .binary64 bits).isFinite = true ↔ bits.toNat / leadingBit % 2048 ≠ 2047 := by
  by_cases h : bits.toNat / leadingBit % 2048 = 2047
  · unfold UnpackedFloat.unpack
    dsimp only
    rw [if_pos ((unpackExponent_eq_neg_one bits).mpr h)]
    split <;> exact iff_of_false nofun fun hne => hne h
  · rw [unpack_eq_unpacked bits h]
    exact iff_of_true (Binary.isFinite_unpacked _) h

end Fields

theorem isFinite_iff (x : Float) : x.isFinite = true ↔ x.toBits.toNat / leadingBit % 2048 ≠ 2047 :=
  isFinite_unpack x.toBits.toBitVec

theorem binary_canonical {x : Float} (h : x.isFinite = true) : (binary x).Canonical := by
  have hpower := (isFinite_iff x).mp h
  have hlt : x.toBits.toNat / leadingBit % 2048 < 2048 := Nat.mod_lt _ (by decide)
  have hm : x.toBits.toNat % leadingBit < leadingBit := Nat.mod_lt _ (by decide)
  by_cases hzero : x.toBits.toNat / leadingBit % 2048 = 0
  · constructor <;> simp only [binary, hzero, if_true] <;> omega
  · constructor <;> simp only [binary, hzero, if_false] <;> omega

theorem binary_eq_ofWord (x : Float) : binary x = .ofWord x.toBits.toNat := rfl

theorem unpack_eq_binary {x : Float} (h : x.isFinite = true) :
    x.toModel.unpack = (binary x).unpacked :=
  unpack_eq_unpacked x.toBits.toBitVec ((isFinite_iff x).mp h)

namespace Binary
variable {b : Binary}

theorem log2_eq_52 (hc : b.Canonical) (h : leadingBit ≤ b.mantissa) : b.mantissa.log2 = 52 := by
  have hm := hc.mantissa
  rw [leadingBit] at h hm
  exact (Nat.log2_eq_iff (by omega)).mpr ⟨by omega, by omega⟩

theorem log2_lt_52 (h : b.mantissa < leadingBit) : b.mantissa.log2 < 52 := by
  by_cases hzero : b.mantissa = 0
  · simp [hzero]
  · exact (Nat.log2_lt hzero).mpr h

theorem pack_unpacked (hc : b.Canonical) :
    UnpackedFloat.pack .binary64 b.unpacked =
      packComponents .binary64 b.sign (BitVec.ofNat 11 b.power) (BitVec.ofNat 52 b.mantissa) := by
  have hbias : ((Format.binary64.exponentBias : Nat) : Int) = 1023 := rfl
  have hbits : Format.binary64.mantissaBits = 53 := rfl
  have hlow := hc.low
  have hhigh := hc.high
  by_cases hzero : b.mantissa = 0
  · have hpower : b.power = 0 := if_pos (hzero ▸ by decide)
    rw [unpacked, dif_pos hzero, hpower, hzero]
    rfl
  · rw [unpacked, dif_neg hzero]
    unfold UnpackedFloat.pack
    dsimp only
    rw [if_neg (by omega), power]
    by_cases hsub : b.mantissa < leadingBit
    · have hlog := log2_lt_52 hsub
      rw [if_neg (by omega), if_pos hsub]
    · have hlog := log2_eq_52 hc (Nat.le_of_not_lt hsub)
      have hpower : b.exponent + Format.binary64.exponentBias + (52 : Nat) = b.exponent + 1075 := by
        omega
      rw [if_pos (by omega), if_neg hsub, hpower]

theorem power_lt (hc : b.Canonical) : b.power < 2047 := by
  have hhigh := hc.high
  rw [power]
  split <;> omega

theorem toNat_packComponents (s : Sign) (e : BitVec 11) (m : BitVec 52) :
    (packComponents .binary64 s e m).toNat =
      s.toBitVec.toNat * 0x8000000000000000 + e.toNat * leadingBit + m.toNat := by
  have hinner : (s.toBitVec ++ e).toNat = s.toBitVec.toNat * 2048 + e.toNat := by
    rw [BitVec.toNat_append, ← Nat.shiftLeft_add_eq_or_of_lt e.isLt, Nat.shiftLeft_eq]
  have houter : (s.toBitVec ++ e ++ m).toNat = (s.toBitVec ++ e).toNat * leadingBit + m.toNat := by
    rw [BitVec.toNat_append, ← Nat.shiftLeft_add_eq_or_of_lt m.isLt, Nat.shiftLeft_eq]
    rfl
  refine houter.trans ?_
  rw [hinner, leadingBit]
  omega

/-- The three fields of the double's word. -/
theorem toBits_toFloat (hc : b.Canonical) :
    b.toFloat.toBits.toNat / 0x8000000000000000 = (if b.negative then 1 else 0) ∧
      b.toFloat.toBits.toNat / leadingBit % 2048 = b.power ∧
      b.toFloat.toBits.toNat % leadingBit = b.mantissa % leadingBit := by
  have hpower := power_lt hc
  have hsign : b.sign.toBitVec.toNat = if b.negative then 1 else 0 := by
    cases hneg : b.negative <;> simp [sign, hneg, Sign.toBitVec]
  have hword : b.toFloat.toBits.toNat = (if b.negative then 1 else 0) * 0x8000000000000000 +
      b.power * leadingBit + b.mantissa % leadingBit := by
    change (UnpackedFloat.pack .binary64 b.unpacked).toNat = _
    rw [pack_unpacked hc, toNat_packComponents, hsign, BitVec.toNat_ofNat, BitVec.toNat_ofNat,
      Nat.mod_eq_of_lt (a := b.power) (by omega)]
    rfl
  rw [hword, leadingBit]
  split <;> omega

/-- The parts of a double made from canonical parts are these. -/
theorem binary_toFloat (hc : b.Canonical) : binary b.toFloat = b := by
  obtain ⟨hsign, hpower, hfraction⟩ := toBits_toFloat hc
  obtain ⟨hm, hlow, hhigh, hnormal⟩ := hc
  rw [binary_eq_ofWord]
  simp only [ofWord, hsign, hpower, hfraction]
  obtain ⟨negative, mantissa, exponent⟩ := b
  simp only [power] at *
  by_cases hsub : mantissa < leadingBit
  · have hexponent : exponent = -1074 := by omega
    cases negative <;> simp [hsub, hexponent, Nat.mod_eq_of_lt hsub]
  · have hp : (exponent + 1075).toNat ≠ 0 := by omega
    have hmod : mantissa % leadingBit + leadingBit = mantissa := by
      rw [leadingBit] at *
      omega
    have hexponent : ((exponent + 1075).toNat : Int) - 1075 = exponent := by omega
    cases negative <;> simp only [hsub, hp, if_false, hmod, hexponent] <;> rfl

theorem isFinite_toFloat (hc : b.Canonical) : b.toFloat.isFinite = true := by
  have hpower := power_lt hc
  rw [isFinite_iff, (toBits_toFloat hc).2.1]
  omega

theorem unpack_toFloat (hc : b.Canonical) : b.toFloat.toModel.unpack = b.unpacked := by
  rw [unpack_eq_binary (isFinite_toFloat hc), binary_toFloat hc]

theorem neg_sign : -b.sign = { b with negative := !b.negative : Binary }.sign := by
  obtain ⟨negative, mantissa, exponent⟩ := b
  cases negative <;> rfl

theorem neg_unpacked :
    b.unpacked.neg = { b with negative := !b.negative : Binary }.unpacked := by
  by_cases h : b.mantissa = 0
  · rw [unpacked, dif_pos h, unpacked, dif_pos h, ← neg_sign]
    rfl
  · rw [unpacked, dif_neg h]
    exact finite_eq_unpacked neg_sign rfl rfl

theorem neg_toFloat (hc : b.Canonical) :
    -b.toFloat = { b with negative := !b.negative : Binary }.toFloat := by
  change Float.ofModel (.pack b.toFloat.toModel.unpack.neg) = _
  rw [unpack_toFloat hc, neg_unpacked, toFloat]

end Binary

theorem Binary.power_ofWord (n : Nat) : (ofWord n).power = n / leadingBit % 2048 := by
  have hm : n % leadingBit < leadingBit := Nat.mod_lt _ (by decide)
  by_cases hzero : n / leadingBit % 2048 = 0
  · simp [power, ofWord, hzero, hm]
  · simp only [power, ofWord, hzero, if_false]
    rw [if_neg (by omega)]
    omega

theorem Binary.mantissa_ofWord (n : Nat) : (ofWord n).mantissa % leadingBit = n % leadingBit := by
  rw [ofWord]
  split <;> simp

theorem eq_of_toBits {x y : Float} (h : x.toBits = y.toBits) : x = y := by
  obtain ⟨⟨bits, _⟩⟩ := x
  obtain ⟨⟨_, _⟩⟩ := y
  obtain rfl := h
  rfl

/-- A finite double is made from its parts: the word of these has the same three fields. -/
theorem toFloat_binary {x : Float} (h : x.isFinite = true) : (binary x).toFloat = x := by
  have hlt : x.toBits.toNat < 0x10000000000000000 := x.toBits.toNat_lt
  obtain ⟨hsign, hpower, hmantissa⟩ := Binary.toBits_toFloat (binary_canonical h)
  rw [binary_eq_ofWord, Binary.power_ofWord] at hpower
  rw [binary_eq_ofWord, Binary.mantissa_ofWord] at hmantissa
  have hword : (binary x).toFloat.toBits.toNat = x.toBits.toNat := by
    have hnegative : x.toBits.toNat / 0x8000000000000000 =
        if (binary x).negative then 1 else 0 := by
      rw [binary_eq_ofWord]
      simp only [Binary.ofWord, beq_iff_eq]
      split <;> omega
    rw [← hnegative] at hsign
    rw [binary_eq_ofWord] at hsign ⊢
    rw [leadingBit] at hpower hmantissa
    omega
  exact eq_of_toBits (UInt64.toNat_inj.mp hword)

end BlockTemplate.Decimal
