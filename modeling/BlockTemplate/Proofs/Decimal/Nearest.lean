import BlockTemplate.Proofs.Decimal.Arithmetic
import BlockTemplate.Proofs.Decimal.Digits

/-! Reading decimals: a decimal in the interval of a double is read as that double. -/
namespace BlockTemplate.Decimal
open Float.Model Float.Model.UnpackedFloat

section Reading
variable {b : Binary} {m : ℕ} {e : ℤ}

theorem toFloat_of_pos (hneg : b.negative = false) (hpos : 0 < b.mantissa) :
    b.toFloat = .ofModel (.pack (.finite .positive b.mantissa b.exponent hpos)) := by
  rw [Binary.toFloat, Binary.unpacked, dif_neg hpos.ne', Binary.sign, hneg]
  rfl

theorem ten_zpow_of_nonneg (h : 0 ≤ e) : (10 : ℚ) ^ e = 10 ^ e.natAbs := by
  rw [← zpow_natCast]
  congr 1
  omega

theorem ten_zpow_of_nonpos (h : e ≤ 0) : (10 : ℚ) ^ e = (10 ^ e.natAbs)⁻¹ := by
  rw [← zpow_natCast, ← zpow_neg]
  congr 1
  omega

theorem le_log2_shift {n : ℕ} (h : 0 < n) : 52 ≤ (n * 2 ^ 53).log2 := by
  rw [Nat.le_log2 (by positivity)]
  calc 2 ^ 52 ≤ 1 * 2 ^ 53 := by norm_num
    _ ≤ n * 2 ^ 53 := by gcongr; exact h

/-- Far from the range of doubles nothing is computed; elsewhere the decimal is rounded. -/
theorem unpacked_ofScientific (hc : b.Canonical) (hpos : 0 < b.mantissa) (hm : 0 < m)
    (hlow : -2048 - m.log2 ≤ e) (hhigh : e ≤ 2048) (hv : (interval b).Contains (m * 10 ^ e)) :
    UnpackedFloat.ofScientific .binary64 m e = .finite .positive b.mantissa b.exponent hpos := by
  have hlow' : ¬ e < -((2 ^ 11 : ℤ) + m.log2) := by omega
  have hhigh' : ¬ e > 2 ^ 11 := by omega
  rw [UnpackedFloat.ofScientific, dif_neg hm.ne', if_neg hhigh', if_neg hlow']
  by_cases he : 0 ≤ e
  · obtain ⟨k, rfl⟩ := Int.eq_ofNat_of_zero_le he
    have hbits : 52 ≤ ((m <<< 53) * 10 ^ k).log2 := by
      rw [Nat.shiftLeft_eq, mul_right_comm]
      exact le_log2_shift (Nat.mul_pos hm (by positivity))
    have hvalue : ((m <<< 53 : ℕ) * 2 ^ (-53 : ℤ) * ((10 ^ k : ℕ) * 2 ^ (0 : ℤ)) : ℚ) =
        m * 10 ^ (k : ℤ) := by
      rw [Nat.shiftLeft_eq, zpow_natCast, zpow_zero, mul_one]
      push_cast
      rw [mul_assoc (m : ℚ)]
      norm_num
    rw [← hvalue] at hv
    rw [if_pos he]
    exact mul_eq hc hpos _ _ hbits hv
  · have hvalue : ((m : ℕ) * 2 ^ (0 : ℤ) / ((10 ^ (-e).toNat : ℕ) * 2 ^ (0 : ℤ)) : ℚ) =
        m * 10 ^ e := by
      have hk : (-e).toNat = e.natAbs := by omega
      rw [zpow_zero, mul_one, mul_one, div_eq_mul_inv, hk, ten_zpow_of_nonpos (by omega)]
      push_cast
      rfl
    rw [← hvalue] at hv
    rw [if_neg he]
    exact div_eq hc hpos _ _ hv

theorem unpack_toFloat_toUInt64 (hm : 0 < m) (hlt : m < 2 * leadingBit) :
    ∃ hpos, m.toUInt64.toFloat.toModel.unpack =
      .finite .positive (Binary.ofNat m).mantissa (Binary.ofNat m).exponent hpos := by
  have hpos : 0 < (Binary.ofNat m).mantissa :=
    lt_of_lt_of_le (by decide) (mantissa_ofNat_bounds hm hlt).1
  rw [toFloat_toUInt64 hm hlt, Binary.unpack_toFloat (ofNat_canonical hm hlt), Binary.unpacked,
    dif_neg hpos.ne']
  exact ⟨hpos, rfl⟩

section Fast
variable (hc : b.Canonical) (hpos : 0 < b.mantissa) (hm : 0 < m) (hlt : m < 2 * leadingBit)
  {p : Float} {n k : ℕ} {f : ℤ} {hn : 0 < n} (hp : p.toModel.unpack = .finite .positive n f hn)
  (hvalue : (n : ℚ) * 2 ^ f = 10 ^ k)
include hc hm hlt hp hvalue

theorem mul_power (hlead : leadingBit ≤ n) (hv : (interval b).Contains (m * 10 ^ k)) :
    m.toUInt64.toFloat * p = .ofModel (.pack (.finite .positive b.mantissa b.exponent hpos)) := by
  obtain ⟨hm', hunpack⟩ := unpack_toFloat_toUInt64 hm hlt
  have hbits : 52 ≤ ((Binary.ofNat m).mantissa * n).log2 := by
    rw [Nat.le_log2 (Nat.mul_pos hm' hn).ne']
    exact le_trans hlead (Nat.le_mul_of_pos_left n hm')
  rw [← ofNat_value, ← hvalue] at hv
  have hmul := mul_eq hc hpos hm' hn hbits hv
  rw [← hunpack, ← hp] at hmul
  rw [← hmul]
  rfl

theorem div_power (hv : (interval b).Contains (m / 10 ^ k)) :
    m.toUInt64.toFloat / p = .ofModel (.pack (.finite .positive b.mantissa b.exponent hpos)) := by
  obtain ⟨hm', hunpack⟩ := unpack_toFloat_toUInt64 hm hlt
  rw [← ofNat_value, ← hvalue] at hv
  have hdiv := div_eq hc hpos hm' hn hv
  rw [← hunpack, ← hp] at hdiv
  rw [← hdiv]
  rfl

end Fast

theorem signed_natAbs (e : ℤ) :
    (if decide (e < 0) = true then Int.negOfNat e.natAbs else Int.ofNat e.natAbs) = e := by
  by_cases he : e < 0
  · simp only [he, decide_true, if_true, Int.negOfNat_eq, Int.ofNat_eq_natCast]
    omega
  · simp only [he, decide_false, Bool.false_eq_true, if_false, Int.ofNat_eq_natCast]
    omega

/-- A decimal in the interval of a double is read as it. -/
theorem ofScientific_eq (hc : b.Canonical) (hneg : b.negative = false) (hpos : 0 < b.mantissa)
    (hm : 0 < m) (hlow : -2048 - m.log2 ≤ e) (hhigh : e ≤ 2048)
    (hv : (interval b).Contains (m * 10 ^ e)) :
    Float.ofScientific m (e < 0) e.natAbs = b.toFloat := by
  have hfloat := toFloat_of_pos hneg hpos
  rw [Float.ofScientific]
  by_cases hfast : m < 2 ^ 53 ∧ e.natAbs ≤ 22
  · obtain ⟨n, f, hn, hp, hlead, hvalue⟩ := powerOfTen_unpack (Nat.lt_succ_of_le hfast.2)
    rw [dif_pos hfast]
    by_cases he : e < 0
    · rw [ten_zpow_of_nonpos he.le, ← div_eq_mul_inv] at hv
      simp only [he, decide_true, if_true]
      rw [hfloat]
      exact div_power hc hpos hm hfast.1 hp hvalue hv
    · rw [ten_zpow_of_nonneg (not_lt.mp he)] at hv
      simp only [he, decide_false, Bool.false_eq_true, if_false]
      rw [hfloat]
      exact mul_power hc hpos hm hfast.1 hp hvalue hlead hv
  · have hexponent := signed_natAbs e
    rw [dif_neg hfast]
    simp only [hexponent]
    rw [hfloat, Float.Model.ofScientific, unpacked_ofScientific hc hpos hm hlow hhigh hv]

/-- A positive number has as many decimal digits as its size says. -/
theorem toDigits_bounds (hm : 0 < m) :
    10 ^ ((Nat.toDigits 10 m).length - 1) ≤ m ∧ m < 10 ^ (Nat.toDigits 10 m).length := by
  have hlength : 0 < (Nat.toDigits 10 m).length := Nat.length_toDigits_pos
  constructor
  · by_cases hone : (Nat.toDigits 10 m).length = 1
    · rw [hone]
      exact hm
    · by_contra hlt
      have hle := (Nat.length_toDigits_le_iff (by decide) (by omega)).mpr (not_le.mp hlt)
      omega
  · exact (Nat.length_toDigits_le_iff (by decide) hlength).mp le_rfl

theorem length_toDigits_le (hm : 0 < m) : (Nat.toDigits 10 m).length ≤ m.log2 + 1 := by
  have hlow := (toDigits_bounds hm).1
  have hpow : 2 ^ ((Nat.toDigits 10 m).length - 1) ≤ 10 ^ ((Nat.toDigits 10 m).length - 1) :=
    Nat.pow_le_pow_left (by decide) _
  have hlt := (Nat.pow_lt_pow_iff_right (by decide)).mp
    (lt_of_le_of_lt (hpow.trans hlow) Nat.lt_log2_self)
  omega

/-- The size of a decimal bounds its value. -/
theorem decimal_bounds (hm : 0 < m) (e : ℤ) :
    (10 : ℚ) ^ ((Nat.toDigits 10 m).length + e - 1) ≤ m * 10 ^ e ∧
      m * 10 ^ e < (10 : ℚ) ^ ((Nat.toDigits 10 m).length + e) := by
  obtain ⟨hlow, hhigh⟩ := toDigits_bounds hm
  have hlength : 0 < (Nat.toDigits 10 m).length := Nat.length_toDigits_pos
  generalize (Nat.toDigits 10 m).length = n at *
  have hlow' : (10 : ℚ) ^ (n - 1) ≤ m := by exact_mod_cast hlow
  have hhigh' : (m : ℚ) < 10 ^ n := by exact_mod_cast hhigh
  have hunit : (0 : ℚ) < 10 ^ e := by positivity
  constructor
  · have hsplit : (n : ℤ) + e - 1 = (n - 1 : ℕ) + e := by omega
    rw [hsplit, zpow_add₀ (by norm_num), zpow_natCast]
    gcongr
  · rw [zpow_add₀ (by norm_num), zpow_natCast]
    gcongr

end Reading

namespace Binary
variable {b : Binary} {v : ℚ}

/-- The interval is within the range of doubles. -/
theorem contains_range (hc : b.Canonical) (hpos : 0 < b.mantissa) (h : (interval b).Contains v) :
    2 ^ (-1075 : ℤ) ≤ v ∧ v < 2 ^ (1024 : ℤ) := by
  have hunit : (0 : ℚ) < 2 ^ b.exponent := by positivity
  have hlow := (contains_bounds hpos h).1
  have hone : (1 : ℚ) ≤ b.mantissa := by exact_mod_cast hpos
  have hgap : b.gap ≤ 1 / 2 := by
    rw [gap]
    split <;> norm_num
  have hhalf : (1 / 2 : ℚ) ≤ v / 2 ^ b.exponent := by linarith
  rw [le_div_iff₀ hunit] at hhalf
  constructor
  · calc (2 : ℚ) ^ (-1075 : ℤ) ≤ 2 ^ (-1 + b.exponent) := by
          gcongr
          · norm_num
          · linarith [hc.low]
      _ = 1 / 2 * 2 ^ b.exponent := by rw [zpow_add₀ two_ne_zero, zpow_neg_one, one_div]
      _ ≤ v := hhalf
  · calc v < 2 ^ (b.exponent + 53) := value_lt hc hpos h
      _ ≤ 2 ^ (1024 : ℤ) := by
        gcongr
        · norm_num
        · linarith [hc.high]

theorem pos_of_contains (hc : b.Canonical) (hpos : 0 < b.mantissa) {m : ℕ} {e : ℤ}
    (h : (interval b).Contains (m * 10 ^ e)) : 0 < m := by
  by_contra hzero
  have hm : m = 0 := by omega
  have hleast := (contains_range hc hpos h).1
  have hpositive : (0 : ℚ) < 2 ^ (-1075 : ℤ) := by positivity
  rw [hm, Nat.cast_zero, zero_mul] at hleast
  linarith

end Binary

theorem two_pow_le_ten_pow (n : ℕ) : (2 : ℚ) ^ ((3 * n : ℕ) : ℤ) ≤ 10 ^ (n : ℤ) := by
  rw [zpow_natCast, zpow_natCast, pow_mul]
  gcongr
  norm_num

/-- A decimal in the interval of a positive double is read as it. -/
theorem scaled_eq {b : Binary} {m : ℕ} {e : ℤ} (hc : b.Canonical) (hneg : b.negative = false)
    (hpos : 0 < b.mantissa) (hv : (interval b).Contains (m * 10 ^ e)) :
    scaled m e = b.toFloat := by
  obtain ⟨hleast, hgreatest⟩ := Binary.contains_range hc hpos hv
  have hm := Binary.pos_of_contains hc hpos hv
  obtain ⟨hlow, hhigh⟩ := decimal_bounds hm e
  have hlength := length_toDigits_le hm
  have hlarge : ¬ 400 < (Nat.toDigits 10 m).length + e := by
    intro hsize
    have hten : (10 : ℚ) ^ ((400 : ℕ) : ℤ) ≤ 10 ^ ((Nat.toDigits 10 m).length + e - 1) :=
      zpow_le_zpow_right₀ (by norm_num) (by omega)
    have htwo : (2 : ℚ) ^ (1024 : ℤ) ≤ 2 ^ ((3 * 400 : ℕ) : ℤ) :=
      zpow_le_zpow_right₀ (by norm_num) (by norm_num)
    linarith [two_pow_le_ten_pow 400]
  have hsmall : ¬ (Nat.toDigits 10 m).length + e < -400 := by
    intro hsize
    have hten : (10 : ℚ) ^ ((Nat.toDigits 10 m).length + e) ≤ 10 ^ (-((401 : ℕ) : ℤ)) :=
      zpow_le_zpow_right₀ (by norm_num) (by omega)
    have htwo : (2 : ℚ) ^ (-((3 * 401 : ℕ) : ℤ)) ≤ 2 ^ (-1075 : ℤ) :=
      zpow_le_zpow_right₀ (by norm_num) (by norm_num)
    have hinv : (10 : ℚ) ^ (-((401 : ℕ) : ℤ)) ≤ 2 ^ (-((3 * 401 : ℕ) : ℤ)) := by
      rw [zpow_neg, zpow_neg]
      exact inv_anti₀ (by positivity) (two_pow_le_ten_pow 401)
    linarith
  rw [scaled, if_neg hm.ne', if_neg hlarge, if_neg hsmall]
  exact ofScientific_eq hc hneg hpos hm (by omega) (by omega) hv

end BlockTemplate.Decimal
