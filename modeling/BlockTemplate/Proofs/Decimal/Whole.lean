import BlockTemplate.Proofs.Decimal.Shortest

/-! Whole numbers as doubles: one of 64 bits lies in the interval of some double, so rounding it
never overflows. -/
namespace BlockTemplate.Decimal

section Quotient
variable {q r j : ℕ}

/-- The number in units of the mantissa. -/
theorem quotient_eq (q r j : ℕ) :
    ((q * 2 ^ j + r : ℕ) : ℚ) / 2 ^ (j : ℤ) = q + (r : ℚ) / 2 ^ j := by
  rw [zpow_natCast]
  push_cast
  field_simp

/-- Half a unit or less is dropped. -/
theorem contains_down (hq : 0 < q) (hhalf : 2 * r ≤ 2 ^ j) (heven : 2 * r = 2 ^ j → q % 2 = 0) :
    (interval ⟨false, q, j⟩).Contains ((q * 2 ^ j + r : ℕ) : ℚ) := by
  have hunit : (0 : ℚ) < 2 ^ j := by positivity
  have hgap := (⟨false, q, j⟩ : Binary).gap_pos
  have hlow : 0 ≤ (r : ℚ) / 2 ^ j := by positivity
  have hhigh : (r : ℚ) / 2 ^ j ≤ 1 / 2 := by
    rw [div_le_div_iff₀ hunit two_pos]
    exact_mod_cast (by omega : r * 2 ≤ 1 * 2 ^ j)
  rw [Binary.contains_iff hq, quotient_eq]
  split
  · exact ⟨by linarith, by linarith⟩
  · next hodd =>
    have hless : 2 * r < 2 ^ j := lt_of_le_of_ne hhalf fun h => hodd (heven h)
    have hstrict : (r : ℚ) / 2 ^ j < 1 / 2 := by
      rw [div_lt_div_iff₀ hunit two_pos]
      exact_mod_cast (by omega : r * 2 < 1 * 2 ^ j)
    exact ⟨by linarith, by linarith⟩

/-- Half a unit or more goes up to the next mantissa. -/
theorem contains_up (hq : leadingBit ≤ q) (hr : r < 2 ^ j) (hhalf : 2 ^ j ≤ 2 * r)
    (hodd : 2 * r = 2 ^ j → q % 2 = 1) :
    (interval ⟨false, q + 1, j⟩).Contains ((q * 2 ^ j + r : ℕ) : ℚ) := by
  have hunit : (0 : ℚ) < 2 ^ j := by positivity
  have hgap : (⟨false, q + 1, j⟩ : Binary).gap = 1 / 2 := by
    rw [Binary.gap, if_neg]
    rintro ⟨h, _⟩
    dsimp only at h
    omega
  have hlow : 1 / 2 ≤ (r : ℚ) / 2 ^ j := by
    rw [div_le_div_iff₀ two_pos hunit]
    exact_mod_cast (by omega : 1 * 2 ^ j ≤ r * 2)
  have hhigh : (r : ℚ) / 2 ^ j < 1 := by
    rw [div_lt_one hunit]
    exact_mod_cast hr
  rw [Binary.contains_iff q.succ_pos, quotient_eq, hgap]
  push_cast
  split
  · exact ⟨by linarith, by linarith⟩
  · next hnext =>
    have hmore : 2 ^ j < 2 * r := by
      refine lt_of_le_of_ne hhalf fun h => ?_
      have := hodd h.symm
      omega
    have hstrict : 1 / 2 < (r : ℚ) / 2 ^ j := by
      rw [div_lt_div_iff₀ two_pos hunit]
      exact_mod_cast (by omega : 1 * 2 ^ j < r * 2)
    exact ⟨by linarith, by linarith⟩

/-- After the greatest mantissa comes the least one of the next exponent. -/
theorem contains_carry (hq : q + 1 = 2 * leadingBit) (hr : r < 2 ^ j) (hhalf : 2 ^ j ≤ 2 * r) :
    (interval ⟨false, leadingBit, (j + 1 : ℕ)⟩).Contains ((q * 2 ^ j + r : ℕ) : ℚ) := by
  have hunit : (0 : ℚ) < 2 ^ j := by positivity
  have hgap : (⟨false, leadingBit, (j + 1 : ℕ)⟩ : Binary).gap = 1 / 4 := by
    rw [Binary.gap, if_pos ⟨rfl, by dsimp only; omega⟩]
  have hlow : 1 / 2 ≤ (r : ℚ) / 2 ^ j := by
    rw [div_le_div_iff₀ two_pos hunit]
    exact_mod_cast (by omega : 1 * 2 ^ j ≤ r * 2)
  have hhigh : (r : ℚ) / 2 ^ j < 1 := by
    rw [div_lt_one hunit]
    exact_mod_cast hr
  have hmantissa : (q : ℚ) + 1 = 2 * leadingBit := by exact_mod_cast hq
  have hquotient : ((q * 2 ^ j + r : ℕ) : ℚ) / 2 ^ ((j + 1 : ℕ) : ℤ) =
      (q + (r : ℚ) / 2 ^ j) / 2 := by
    rw [← quotient_eq, zpow_natCast, zpow_natCast, pow_succ]
    field_simp
  rw [Binary.contains_iff (show 0 < leadingBit by decide),
    if_pos (show leadingBit % 2 = 0 by decide), hquotient, hgap]
  exact ⟨by linarith, by linarith⟩

end Quotient

theorem canonical_of_large {m j : ℕ} (hlow : leadingBit ≤ m) (hhigh : m < 2 * leadingBit)
    (hj : j ≤ 971) : (⟨false, m, j⟩ : Binary).Canonical where
  mantissa := hhigh
  low := by
    dsimp only
    omega
  high := by
    dsimp only
    omega
  normal := .inl hlow

section Whole
variable {n : ℕ}

theorem ofNat_contains (hpos : 0 < n) (h : n < 2 * leadingBit) :
    (interval (Binary.ofNat n)).Contains n := by
  have hm := mantissa_ofNat_bounds hpos h
  have hmantissa : (n : ℚ) / 2 ^ (Binary.ofNat n).exponent = (Binary.ofNat n).mantissa := by
    rw [div_eq_iff (by positivity), ofNat_value]
  refine contains_of_inside (lt_of_lt_of_le (by decide) hm.1) ?_ ?_ <;> rw [hmantissa]
  · linarith [(Binary.ofNat n).gap_pos]
  · linarith

/-- A whole number that is not too large is rounded to some double. -/
theorem exists_contains (hpos : 0 < n) (h : n.log2 < 1023) :
    ∃ b : Binary, b.Canonical ∧ b.negative = false ∧ 0 < b.mantissa ∧ (interval b).Contains n := by
  by_cases hexact : n < 2 * leadingBit
  · have hm := mantissa_ofNat_bounds hpos hexact
    exact ⟨_, ofNat_canonical hpos hexact, rfl, lt_of_lt_of_le (by decide) hm.1,
      ofNat_contains hpos hexact⟩
  · -- The 53 leading bits, and the rest in units of the last one.
    have hlog : 53 ≤ n.log2 := (Nat.le_log2 hpos.ne').2 (not_lt.1 hexact)
    obtain ⟨j, hj⟩ : ∃ j, n.log2 = 52 + j := ⟨n.log2 - 52, by omega⟩
    have hunit : 0 < 2 ^ j := by positivity
    have hlow : leadingBit ≤ n / 2 ^ j := by
      rw [Nat.le_div_iff_mul_le hunit]
      calc leadingBit * 2 ^ j = 2 ^ n.log2 := by rw [hj, pow_add]; rfl
        _ ≤ n := Nat.log2_self_le hpos.ne'
    have hhigh : n / 2 ^ j < 2 * leadingBit := by
      rw [Nat.div_lt_iff_lt_mul hunit]
      calc n < 2 ^ (n.log2 + 1) := Nat.lt_log2_self
        _ = 2 * leadingBit * 2 ^ j := by rw [hj, leadingBit]; ring
    have hsplit : n = n / 2 ^ j * 2 ^ j + n % 2 ^ j := (Nat.div_add_mod' n (2 ^ j)).symm
    have hrest := Nat.mod_lt n hunit
    generalize n / 2 ^ j = q, n % 2 ^ j = r at hlow hhigh hsplit hrest
    subst hsplit
    have hq : 0 < q := lt_of_lt_of_le (by decide) hlow
    by_cases hdown : 2 * r < 2 ^ j ∨ 2 * r = 2 ^ j ∧ q % 2 = 0
    · exact ⟨⟨false, q, j⟩, canonical_of_large hlow hhigh (by omega), rfl, hq,
        contains_down hq (by omega) (by omega)⟩
    · by_cases hcarry : q + 1 = 2 * leadingBit
      · exact ⟨⟨false, leadingBit, (j + 1 : ℕ)⟩,
          canonical_of_large le_rfl (by decide) (by omega), rfl, (by decide : 0 < leadingBit),
          contains_carry hcarry hrest (by omega)⟩
      · exact ⟨⟨false, q + 1, j⟩, canonical_of_large (by omega) (by omega) (by omega), rfl,
          q.succ_pos, contains_up hlow hrest (by omega) (by omega)⟩

theorem isFinite_scaled (h : n < UInt64.size) : (scaled n 0).isFinite = true := by
  obtain rfl | hpos := Nat.eq_zero_or_pos n
  · decide +kernel
  · have hlog : n.log2 < 64 := (Nat.log2_lt hpos.ne').2 h
    obtain ⟨b, hc, hneg, hmantissa, hcontains⟩ := exists_contains hpos (by omega)
    rw [scaled_eq hc hneg hmantissa (by simpa using hcontains)]
    exact Binary.isFinite_toFloat hc

theorem isFinite_neg {x : Float} (h : x.isFinite = true) : (-x).isFinite = true := by
  have hc := binary_canonical h
  rw [← toFloat_binary h, Binary.neg_toFloat hc]
  exact Binary.isFinite_toFloat ⟨hc.mantissa, hc.low, hc.high, hc.normal⟩

end Whole
end BlockTemplate.Decimal
