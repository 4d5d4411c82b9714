import BlockTemplate.Proofs.Decimal.Rounding
import Mathlib.Algebra.Order.Field.Basic

/-! Products and quotients of doubles, rounded once, and the numbers that are doubles exactly: whole
numbers of 53 bits and the small powers of ten. -/
namespace BlockTemplate.Decimal
open Float.Model Float.Model.UnpackedFloat

section Arithmetic
variable {b : Binary} {m₁ m₂ : ℕ} {e₁ e₂ : ℤ}

theorem mul_eq (hc : b.Canonical) (hpos : 0 < b.mantissa) (h₁ : 0 < m₁) (h₂ : 0 < m₂)
    (hbits : 52 ≤ (m₁ * m₂).log2) (hv : (interval b).Contains (m₁ * 2 ^ e₁ * (m₂ * 2 ^ e₂))) :
    UnpackedFloat.mul .binary64 (.finite .positive m₁ e₁ h₁) (.finite .positive m₂ e₂ h₂) =
      .finite .positive b.mantissa b.exponent hpos := by
  have hvalue : (m₁ * 2 ^ e₁ * (m₂ * 2 ^ e₂) : ℚ) / 2 ^ (e₁ + e₂) = (m₁ * m₂ : ℕ) := by
    rw [zpow_add₀ two_ne_zero]
    push_cast
    field_simp
  have hcuts : Cuts (.ofMantissaAndAccuracy (m₁ * m₂) .exact)
      ((m₁ * 2 ^ e₁ * (m₂ * 2 ^ e₂)) / 2 ^ (e₁ + e₂)) := by
    rw [hvalue]
    exact sub_self _
  have hfine : e₁ + e₂ ≤ Format.binary64.targetExponent (totalExponent (m₁ * m₂) (e₁ + e₂)) := by
    rw [targetExponent_eq]
    omega
  exact Binary.roundWithAccuracy_eq hc hpos hv hcuts hfine .positive

theorem cuts_accuracyOfFraction {q num den : ℕ} (h : num < den) :
    Cuts (.ofMantissaAndAccuracy q (accuracyOfFraction num den)) (q + num / den) := by
  have hden : (0 : ℚ) < den := by exact_mod_cast Nat.zero_lt_of_lt h
  have hone : (num : ℚ) / den < 1 := by
    rw [div_lt_one hden]
    exact_mod_cast h
  rw [accuracyOfFraction]
  by_cases hzero : num = 0
  · simp [hzero, ExtendedMantissa.ofMantissaAndAccuracy, Cuts, Part]
  · have hnum : (0 : ℚ) < num := by exact_mod_cast Nat.pos_of_ne_zero hzero
    rw [if_neg hzero]
    cases hcompare : compare (2 * num) den with
    | lt =>
      have hlt : (2 * num : ℚ) < den := by exact_mod_cast Nat.compare_eq_lt.mp hcompare
      simp only [ExtendedMantissa.ofMantissaAndAccuracy, Cuts, Part, add_sub_cancel_left]
      exact ⟨by positivity, by rw [div_lt_iff₀ hden]; linarith⟩
    | eq =>
      have heq : (2 * num : ℚ) = den := by exact_mod_cast Nat.compare_eq_eq.mp hcompare
      simp only [ExtendedMantissa.ofMantissaAndAccuracy, Cuts, Part, add_sub_cancel_left]
      rw [div_eq_iff hden.ne']
      linarith
    | gt =>
      have hgt : (den : ℚ) < 2 * num := by exact_mod_cast Nat.compare_eq_gt.mp hcompare
      simp only [ExtendedMantissa.ofMantissaAndAccuracy, Cuts, Part, add_sub_cancel_left]
      exact ⟨by rw [lt_div_iff₀ hden]; linarith, hone⟩

/-- The dividend is shifted until the quotient has 53 bits or the least exponent is reached. -/
theorem divCore_eq (m₁ m₂ : ℕ) (e₁ e₂ : ℤ) : ∃ k : ℕ,
    divCore .binary64 m₁ e₁ m₂ e₂ =
      (m₁ * 2 ^ k / m₂, e₁ - e₂ - k, accuracyOfFraction (m₁ * 2 ^ k % m₂) m₂) ∧
    (e₁ - e₂ - k ≤ -1074 ∨ m₂.log2 + 53 ≤ m₁.log2 + k) := by
  have htarget : Format.binary64.targetExponent (totalExponent m₁ e₁ - totalExponent m₂ e₂) =
      max (m₁.log2 + e₁ - (m₂.log2 + e₂) - 53) (-1074) := by
    change max ((m₁.log2 : ℤ) + 1 + e₁ - (m₂.log2 + 1 + e₂) - 53) (-1074) = _
    omega
  rw [divCore, htarget]
  generalize ht : min (e₁ - e₂) (max (m₁.log2 + e₁ - (m₂.log2 + e₂) - 53 : ℤ) (-1074)) = t
  have hk : e₁ - e₂ - (e₁ - e₂ - t).toNat = t := by omega
  exact ⟨(e₁ - e₂ - t).toNat, by simp only [Nat.shiftLeft_eq, hk], by omega⟩

theorem le_log2_div {m n k : ℕ} (hm : 0 < m) (hn : 0 < n) (h : n.log2 + 53 ≤ m.log2 + k) :
    52 ≤ (m * 2 ^ k / n).log2 := by
  have hlow := Nat.log2_self_le hm.ne'
  have hhigh := Nat.lt_log2_self (n := n)
  have hq : 2 ^ 52 ≤ m * 2 ^ k / n := by
    rw [Nat.le_div_iff_mul_le hn]
    calc 2 ^ 52 * n ≤ 2 ^ 52 * 2 ^ (n.log2 + 1) := by gcongr
      _ = 2 ^ (n.log2 + 53) := by ring
      _ ≤ 2 ^ (m.log2 + k) := Nat.pow_le_pow_right (by decide) h
      _ = 2 ^ m.log2 * 2 ^ k := by ring
      _ ≤ m * 2 ^ k := by gcongr
  exact (Nat.le_log2 (by positivity)).mpr hq

theorem div_eq (hc : b.Canonical) (hpos : 0 < b.mantissa) (h₁ : 0 < m₁) (h₂ : 0 < m₂)
    (hv : (interval b).Contains (m₁ * 2 ^ e₁ / (m₂ * 2 ^ e₂))) :
    UnpackedFloat.div .binary64 (.finite .positive m₁ e₁ h₁) (.finite .positive m₂ e₂ h₂) =
      .finite .positive b.mantissa b.exponent hpos := by
  obtain ⟨k, hcore, henough⟩ := divCore_eq m₁ m₂ e₁ e₂
  have hm₂ : (m₂ : ℚ) ≠ 0 := by exact_mod_cast h₂.ne'
  have hvalue : (m₁ * 2 ^ e₁ / (m₂ * 2 ^ e₂) : ℚ) / 2 ^ (e₁ - e₂ - k) =
      (m₁ * 2 ^ k / m₂ : ℕ) + (m₁ * 2 ^ k % m₂ : ℕ) / m₂ := by
    have hmod : ((m₁ * 2 ^ k : ℕ) : ℚ) = m₂ * (m₁ * 2 ^ k / m₂ : ℕ) + (m₁ * 2 ^ k % m₂ : ℕ) := by
      exact_mod_cast (Nat.div_add_mod (m₁ * 2 ^ k) m₂).symm
    calc (m₁ * 2 ^ e₁ / (m₂ * 2 ^ e₂) : ℚ) / 2 ^ (e₁ - e₂ - k) = (m₁ * 2 ^ k : ℕ) / m₂ := by
          rw [zpow_sub₀ two_ne_zero, zpow_sub₀ two_ne_zero, zpow_natCast]
          push_cast
          field_simp
      _ = _ := by
        rw [hmod]
        field_simp
  have hcuts := cuts_accuracyOfFraction (q := m₁ * 2 ^ k / m₂) (Nat.mod_lt (m₁ * 2 ^ k) h₂)
  rw [← hvalue] at hcuts
  have hfine : e₁ - e₂ - k ≤ Format.binary64.targetExponent
      (totalExponent (m₁ * 2 ^ k / m₂) (e₁ - e₂ - k)) := by
    rw [targetExponent_eq]
    obtain hleast | hlog := henough
    · omega
    · have hq := le_log2_div h₁ h₂ hlog
      omega
  unfold UnpackedFloat.div
  dsimp only
  rw [hcore]
  exact Binary.roundWithAccuracy_eq hc hpos hv hcuts hfine .positive

end Arithmetic

/-- The parts of a natural number of 53 bits. -/
def Binary.ofNat (n : ℕ) : Binary where
  negative := false
  mantissa := n * 2 ^ (52 - n.log2)
  exponent := -(52 - n.log2 : ℕ)

section Whole
variable {n : ℕ}

theorem mantissa_ofNat_bounds (hpos : 0 < n) (h : n < 2 * leadingBit) :
    leadingBit ≤ (Binary.ofNat n).mantissa ∧ (Binary.ofNat n).mantissa < 2 * leadingBit := by
  have hlow := Nat.log2_self_le hpos.ne'
  have hhigh := Nat.lt_log2_self (n := n)
  have hlog : n.log2 < 53 := (Nat.log2_lt hpos.ne').mpr h
  have hpow : leadingBit = 2 ^ n.log2 * 2 ^ (52 - n.log2) := by
    rw [← pow_add, Nat.add_sub_cancel' (by omega)]
    rfl
  constructor
  · calc leadingBit = 2 ^ n.log2 * 2 ^ (52 - n.log2) := hpow
      _ ≤ n * 2 ^ (52 - n.log2) := by gcongr
  · calc n * 2 ^ (52 - n.log2) < 2 ^ (n.log2 + 1) * 2 ^ (52 - n.log2) := by gcongr
      _ = 2 * leadingBit := by
        rw [hpow]
        ring

theorem ofNat_canonical (hpos : 0 < n) (h : n < 2 * leadingBit) : (Binary.ofNat n).Canonical := by
  obtain ⟨hlow, hhigh⟩ := mantissa_ofNat_bounds hpos h
  have hexponent : (Binary.ofNat n).exponent = -(52 - n.log2 : ℕ) := rfl
  exact ⟨hhigh, by omega, by omega, .inl hlow⟩

theorem ofNat_value : ((Binary.ofNat n).mantissa : ℚ) * 2 ^ (Binary.ofNat n).exponent = n := by
  rw [Binary.ofNat, zpow_neg, zpow_natCast]
  push_cast
  field_simp

theorem roundWithAccuracy_exact {m : ℕ} {e : ℤ} (s : Sign) (hpos : 0 < m) (hm : m < 2 * leadingBit)
    (he : -1074 ≤ e) : roundWithAccuracy .binary64 s m e .exact = .finite s m e hpos := by
  have hshift := shiftToTargetExponent_self hm he
  exact roundWithAccuracy_of_shifts s hshift hshift hpos

/-- A number of 53 bits is read exactly. -/
theorem toFloat_toUInt64 (hpos : 0 < n) (h : n < 2 * leadingBit) :
    n.toUInt64.toFloat = (Binary.ofNat n).toFloat := by
  have hm := mantissa_ofNat_bounds hpos h
  have hc := ofNat_canonical hpos h
  have hlog : n.log2 < 53 := (Nat.log2_lt hpos.ne').mpr h
  have hnat : n.toUInt64.toNat = n := by
    rw [leadingBit] at h
    simp only [Nat.toUInt64, UInt64.toNat_ofNat']
    omega
  have hcompare : compare (n : ℤ) 0 = .gt := Int.compare_eq_gt.mpr (by omega)
  have htarget : Format.binary64.targetExponent (totalExponent n 0) = n.log2 - 52 := by
    rw [targetExponent_eq]
    omega
  have hshift : (0 - ((n.log2 : ℤ) - 52)).toNat = 52 - n.log2 := by omega
  have hround : UnpackedFloat.ofUInt64 .binary64 n.toUInt64 = (Binary.ofNat n).unpacked := by
    rw [UnpackedFloat.ofUInt64, UnpackedFloat.ofNat, UnpackedFloat.ofInt,
      UnpackedFloat.normalize, hnat, hcompare]
    simp only [UnpackedFloat.round, Int.toNat_natCast, htarget, decreaseExponent, hshift,
      Nat.shiftLeft_eq]
    have hzero : (Binary.ofNat n).mantissa ≠ 0 := by
      have hlead : 0 < leadingBit := by decide
      omega
    have hexact := roundWithAccuracy_exact .positive (Nat.pos_of_ne_zero hzero) hm.2 hc.low
    rw [← Binary.finite_eq_unpacked rfl rfl rfl, zero_sub]
    exact hexact
  rw [Binary.toFloat, ← hround]
  rfl

end Whole

/-- The powers of ten in the table are exact, each with 53 bits. -/
theorem powersOfTen_exact : ∀ e : Fin 23,
    let x := Float.exactlyRepresentablePowersOfTen[e]
    x.isFinite = true ∧ (binary x).negative = false ∧ leadingBit ≤ (binary x).mantissa ∧
      (binary x).mantissa * 2 ^ (binary x).exponent.toNat =
        10 ^ e.val * 2 ^ (-(binary x).exponent).toNat := by
  decide +kernel

theorem zpow_eq_div {x : ℚ} (hx : x ≠ 0) (e : ℤ) : x ^ e = x ^ e.toNat / x ^ (-e).toNat := by
  rw [← zpow_natCast, ← zpow_natCast, ← zpow_sub₀ hx]
  congr 1
  omega

theorem powerOfTen_unpack {e : ℕ} (he : e < 23) : ∃ (m : ℕ) (k : ℤ) (hm : 0 < m),
    (Float.exactlyRepresentablePowersOfTen[(⟨e, he⟩ : Fin 23)]).toModel.unpack =
        .finite .positive m k hm ∧
      leadingBit ≤ m ∧ (m : ℚ) * 2 ^ k = 10 ^ e := by
  obtain ⟨hfinite, hneg, hlead, hvalue⟩ := powersOfTen_exact ⟨e, he⟩
  generalize Float.exactlyRepresentablePowersOfTen[(⟨e, he⟩ : Fin 23)] = x at *
  have hpos : 0 < (binary x).mantissa := lt_of_lt_of_le (by decide) hlead
  refine ⟨_, (binary x).exponent, hpos, ?_, hlead, ?_⟩
  · rw [unpack_eq_binary hfinite, Binary.unpacked, dif_neg hpos.ne', Binary.sign, hneg]
    rfl
  · rw [zpow_eq_div two_ne_zero, mul_div_assoc', div_eq_iff (by positivity)]
    exact_mod_cast hvalue

end BlockTemplate.Decimal
