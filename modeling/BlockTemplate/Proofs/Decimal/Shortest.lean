import BlockTemplate.Decimal.Layout
import BlockTemplate.Proofs.Decimal.Nearest

/-! The shortest digits of a double lie in its interval. -/
namespace BlockTemplate.Decimal

section Fraction
variable (a : ℕ) (p q : ℤ)

theorem fraction_den_pos : 0 < (fraction a p q).2 := by
  simp [fraction]

theorem fraction_num_pos {a : ℕ} (h : 0 < a) (p q : ℤ) : 0 < (fraction a p q).1 := by
  simp [fraction, h]

theorem fraction_eq : ((fraction a p q).1 : ℚ) / (fraction a p q).2 = a * 2 ^ p * 10 ^ q := by
  rw [zpow_eq_div two_ne_zero p, zpow_eq_div (by norm_num) q, fraction]
  push_cast [Nat.pow_eq]
  field_simp

theorem fraction_le_iff (d : ℕ) (s : ℤ) :
    (fraction a p (-s)).1 ≤ d * (fraction a p (-s)).2 ↔ (a * 2 ^ p : ℚ) ≤ d * 10 ^ s := by
  have hden : (0 : ℚ) < (fraction a p (-s)).2 := by exact_mod_cast fraction_den_pos a p (-s)
  have hscale : (0 : ℚ) < 10 ^ s := by positivity
  have hvalue := fraction_eq a p (-s)
  rw [zpow_neg, ← div_eq_mul_inv] at hvalue
  rw [← div_le_iff₀ hscale, ← hvalue, div_le_iff₀ hden]
  exact_mod_cast Iff.rfl

theorem le_fraction_iff (d : ℕ) (s : ℤ) :
    d * (fraction a p (-s)).2 ≤ (fraction a p (-s)).1 ↔ (d * 10 ^ s : ℚ) ≤ a * 2 ^ p := by
  have hden : (0 : ℚ) < (fraction a p (-s)).2 := by exact_mod_cast fraction_den_pos a p (-s)
  have hscale : (0 : ℚ) < 10 ^ s := by positivity
  have hvalue := fraction_eq a p (-s)
  rw [zpow_neg, ← div_eq_mul_inv] at hvalue
  rw [← le_div_iff₀ hscale, ← hvalue, le_div_iff₀ hden]
  exact_mod_cast Iff.rfl

end Fraction

namespace Interval
variable {i : Interval} {tie : Tie} {d : ℕ} {s : ℤ}

theorem holds_iff : i.holds d s = true ↔ i.Contains (d * 10 ^ s) := by
  have hlow := fraction_le_iff i.low i.power d s
  have hhigh := le_fraction_iff i.high i.power d s
  have hlow' := le_fraction_iff i.low i.power d s
  have hhigh' := fraction_le_iff i.high i.power d s
  rw [holds, Contains]
  cases hclosed : i.closed with
  | true => simp [hlow, hhigh]
  | false => simp [← not_le, hlow', hhigh']

/-- What is found on a grid lies in the interval. -/
theorem nearest?_contains (h : i.nearest? tie s = some d) : i.Contains (d * 10 ^ s) := by
  rw [← holds_iff]
  simp only [nearest?] at h
  split at h
  · next hbelow habove =>
    cases h
    rw [apply_ite (i.holds · s), hbelow, habove, ite_self]
  · next hbelow _ =>
    cases h
    exact hbelow
  · next _ habove =>
    cases h
    exact habove
  · cases h

/-- Where nothing is found, both neighbours on the grid are outside. -/
theorem nearest?_eq_none (h : i.nearest? tie s = none) :
    ∃ below : ℕ, below * 10 ^ s ≤ (i.value * 2 ^ i.power : ℚ) ∧
      (i.value * 2 ^ i.power : ℚ) < (below + 1 : ℕ) * 10 ^ s ∧
      ¬ i.Contains (below * 10 ^ s) ∧ ¬ i.Contains ((below + 1 : ℕ) * 10 ^ s) := by
  have hden := fraction_den_pos i.value i.power (-s)
  have hlow := le_fraction_iff i.value i.power
    ((fraction i.value i.power (-s)).1 / (fraction i.value i.power (-s)).2) s
  have hhigh := le_fraction_iff i.value i.power
    ((fraction i.value i.power (-s)).1 / (fraction i.value i.power (-s)).2 + 1) s
  simp only [nearest?] at h
  split at h
  · cases h
  · cases h
  · cases h
  · next hbelow habove =>
    refine ⟨_, hlow.mp (Nat.div_mul_le_self _ _), ?_, ?_, ?_⟩
    · rw [← not_le, ← hhigh, not_le]
      exact Nat.lt_mul_of_div_lt (Nat.lt_succ_self _) hden
    · rw [← holds_iff, hbelow]
      decide
    · rw [← holds_iff, habove]
      decide

/-- The search ends with a point of the interval, if there is one on a grid that it comes to. -/
theorem search_contains {lead : ℤ} {tries n : ℕ}
    (h : ∃ j < tries, i.nearest? tie (lead - (n + j : ℕ) + 1) ≠ none) :
    i.Contains ((i.search tie lead tries n).1 * 10 ^ (i.search tie lead tries n).2) := by
  induction tries generalizing n with
  | zero =>
    obtain ⟨j, hj, _⟩ := h
    omega
  | succ tries ih =>
    obtain ⟨j, hj, hsome⟩ := h
    rw [search]
    cases hfound : i.nearest? tie (lead - n + 1) with
    | some d => exact nearest?_contains hfound
    | none =>
      cases j with
      | zero => exact absurd hfound hsome
      | succ j => exact ih ⟨j, by omega, by rwa [Nat.add_right_comm, Nat.add_assoc]⟩

end Interval

theorem ten_zpow_neg_mul_le {num den k : ℕ} (h : den ≤ num * 10 ^ k) :
    (10 : ℚ) ^ (-(k : ℤ)) * den ≤ num := by
  have hpow : (0 : ℚ) < 10 ^ k := by positivity
  rw [zpow_neg, zpow_natCast, inv_mul_le_iff₀ hpow, mul_comm]
  exact_mod_cast h

/-- The leading digit stands at the power given, or above it. -/
theorem leadingPower_le {num den : ℕ} (hnum : 0 < num) (hden : 0 < den) :
    (10 : ℚ) ^ leadingPower num den ≤ num / den := by
  have hnum' : (0 : ℚ) < num := by exact_mod_cast hnum
  have hden' : (0 : ℚ) < den := by exact_mod_cast hden
  rw [leadingPower, le_div_iff₀ hden']
  by_cases hle : den ≤ num
  · have hq : 0 < num / den := Nat.div_pos hle hden
    have hdigits := (toDigits_bounds hq).1
    have hlength : 0 < (Nat.toDigits 10 (num / den)).length := Nat.length_toDigits_pos
    rw [if_pos hle]
    have hpower : ((Nat.toDigits 10 (num / den)).length : ℤ) - 1 =
        ((Nat.toDigits 10 (num / den)).length - 1 : ℕ) := by omega
    rw [hpower, zpow_natCast]
    exact_mod_cast (Nat.mul_le_of_le_div den _ num hdigits)
  · have hq : 0 < den / num := Nat.div_pos (by omega) hnum
    have hdigits := (toDigits_bounds hq).2
    have hlength : 0 < (Nat.toDigits 10 (den / num)).length := Nat.length_toDigits_pos
    rw [if_neg hle]
    simp only [Nat.pow_eq]
    generalize (Nat.toDigits 10 (den / num)).length = n at *
    by_cases hdown : den ≤ num * 10 ^ (n - 1)
    · have hpower : -((n : ℤ) - 1) = -((n - 1 : ℕ) : ℤ) := by omega
      rw [if_pos hdown, hpower]
      exact ten_zpow_neg_mul_le hdown
    · have hup : den < num * 10 ^ n := by
        rw [mul_comm]
        exact (Nat.div_lt_iff_lt_mul hnum).mp hdigits
      rw [if_neg hdown]
      exact ten_zpow_neg_mul_le hup.le

section Double
variable {b : Binary} (tie : Tie)

theorem contains_of_inside (hpos : 0 < b.mantissa) {v : ℚ}
    (hlow : b.mantissa - b.gap < v / 2 ^ b.exponent)
    (hhigh : v / 2 ^ b.exponent < b.mantissa + 1 / 2) : (interval b).Contains v := by
  rw [Binary.contains_iff hpos]
  split
  · exact ⟨hlow.le, hhigh.le⟩
  · exact ⟨hlow, hhigh⟩

theorem interval_value (b : Binary) :
    ((interval b).value * 2 ^ (interval b).power : ℚ) = b.mantissa * 2 ^ b.exponent := by
  rw [interval, zpow_sub₀ two_ne_zero]
  push_cast
  ring

/-- On a grid of 17 digits one of the neighbours of a double is in its interval. -/
theorem nearest?_ne_none (hc : b.Canonical) (hpos : 0 < b.mantissa) {s : ℤ}
    (hs : 10 ^ s * 10 ^ 16 ≤ (b.mantissa * 2 ^ b.exponent : ℚ)) :
    (interval b).nearest? tie s ≠ none := by
  intro hnone
  obtain ⟨below, hlow, hhigh, hout, hout'⟩ := Interval.nearest?_eq_none hnone
  have hunit : (0 : ℚ) < 2 ^ b.exponent := by positivity
  rw [interval_value, ← div_le_iff₀ hunit] at hlow
  rw [interval_value, ← lt_div_iff₀ hunit] at hhigh
  rw [← div_le_iff₀ hunit] at hs
  -- Both neighbours are outside, so the step of the grid is as wide as the interval.
  have hbelow : below * 10 ^ s / 2 ^ b.exponent ≤ b.mantissa - b.gap := by
    by_contra hin
    exact hout (contains_of_inside hpos (not_le.mp hin) (by linarith))
  have hgap := b.gap_pos
  have habove : (b.mantissa + 1 / 2 : ℚ) ≤ (below + 1 : ℕ) * 10 ^ s / 2 ^ b.exponent := by
    by_contra hin
    exact hout' (contains_of_inside hpos (by linarith) (not_le.mp hin))
  have hstep : ((below + 1 : ℕ) * 10 ^ s / 2 ^ b.exponent : ℚ) =
      below * 10 ^ s / 2 ^ b.exponent + 10 ^ s / 2 ^ b.exponent := by
    push_cast
    ring
  have hwide : b.gap + 1 / 2 ≤ (10 : ℚ) ^ s / 2 ^ b.exponent := by linarith
  rw [mul_div_right_comm] at hs
  have hm : (b.mantissa : ℚ) < 2 * 4503599627370496 := by exact_mod_cast hc.mantissa
  by_cases hborder : b.mantissa = leadingBit ∧ -1074 < b.exponent
  · have hm' : (b.mantissa : ℚ) = 4503599627370496 := by exact_mod_cast hborder.1
    rw [Binary.gap, if_pos hborder] at hwide
    linarith
  · rw [Binary.gap, if_neg hborder] at hwide
    linarith

/-- The digits found, as a number and a power of ten, lie in the interval. -/
theorem search_shortest (hc : b.Canonical) (hpos : 0 < b.mantissa) :
    let lead := leadingPower (fraction (interval b).value (interval b).power 0).1
      (fraction (interval b).value (interval b).power 0).2
    let found := (interval b).search tie lead 17 1
    (interval b).Contains (found.1 * 10 ^ found.2) := by
  intro lead found
  have hvalue := fraction_eq (interval b).value (interval b).power 0
  rw [zpow_zero, mul_one, interval_value] at hvalue
  have hden := fraction_den_pos (interval b).value (interval b).power 0
  have hnum : 0 < (fraction (interval b).value (interval b).power 0).1 :=
    fraction_num_pos (Nat.mul_pos (by decide) hpos) _ _
  have hlead := leadingPower_le hnum hden
  rw [hvalue] at hlead
  apply Interval.search_contains
  refine ⟨16, by decide, nearest?_ne_none tie hc hpos ?_⟩
  have hgrid : (10 : ℚ) ^ (lead - (1 + 16 : ℕ) + 1) * 10 ^ 16 = 10 ^ lead := by
    rw [← zpow_natCast, ← zpow_add₀ (by norm_num)]
    congr 1
    push_cast
    ring
  rw [hgrid]
  exact hlead

end Double

theorem dropWhile_zeros (cs : List Char) : ∃ n, cs = zeros n ++ cs.dropWhile (· == '0') := by
  induction cs with
  | nil => exact ⟨0, rfl⟩
  | cons c cs ih =>
    by_cases hc : c = '0'
    · obtain ⟨n, hn⟩ := ih
      refine ⟨n + 1, ?_⟩
      rw [hc, List.dropWhile_cons_of_pos (by decide), zeros, List.replicate_succ, List.cons_append]
      exact congrArg _ hn
    · refine ⟨0, ?_⟩
      rw [List.dropWhile_cons_of_neg (by simpa using hc)]
      rfl

theorem stripZeros_append (cs : List Char) : ∃ n, cs = stripZeros cs ++ zeros n := by
  obtain ⟨n, hn⟩ := dropWhile_zeros cs.reverse
  refine ⟨n, ?_⟩
  have hsplit := congrArg List.reverse hn
  rwa [List.reverse_reverse, List.reverse_append, zeros, List.reverse_replicate] at hsplit

theorem ofDigits_append (cs ds : List Char) :
    ofDigits (cs ++ ds) = ofDigits cs * 10 ^ ds.length + ofDigits ds := by
  rw [ofDigits_eq_ofDigitChars, Nat.ofDigitChars_append, Nat.ofDigitChars_eq_ofDigitChars_zero,
    mul_comm]
  rfl

theorem ofDigits_zeros (n : ℕ) : ofDigits (zeros n) = 0 := by
  rw [ofDigits_eq_ofDigitChars, zeros, Nat.ofDigitChars_replicate_zero, mul_zero]

/-- A row of digits that starts with no zero. -/
structure Leads (cs : List Char) : Prop where
  ne_nil : cs ≠ []
  digits : ∀ c ∈ cs, isDigit c = true
  noZero : cs.head? ≠ some '0'

theorem stripZeros_leads {n : ℕ} (h : 0 < n) : Leads (stripZeros (Nat.toDigits 10 n)) := by
  obtain ⟨k, hk⟩ := stripZeros_append (Nat.toDigits 10 n)
  have hhead := toDigits_head n h
  rw [hk] at hhead
  have hsome : stripZeros (Nat.toDigits 10 n) ≠ [] := by
    intro hnil
    rw [hnil, List.nil_append] at hk hhead
    cases k with
    | zero => exact Nat.toDigits_ne_nil hk
    | succ k => simp [zeros, List.replicate_succ] at hhead
  refine ⟨hsome, fun c hc => isDigit_of_mem_toDigits (n := n) ?_, ?_⟩
  · rw [hk]
    exact List.mem_append_left _ hc
  · rwa [List.head?_append_of_ne_nil _ hsome] at hhead

namespace Digits

/-- The number that the digits stand for. -/
def value (d : Digits) : ℚ := ofDigits d.digits * 10 ^ (d.power - d.digits.length + 1)

end Digits

/-- The shortest digits of a double read back as it. -/
theorem shortest_contains {b : Binary} (tie : Tie) (hc : b.Canonical) (hpos : 0 < b.mantissa) :
    Leads (shortest tie b).digits ∧ (interval b).Contains (shortest tie b).value := by
  have hfound := search_shortest tie hc hpos
  obtain ⟨d, s, hsearch⟩ : ∃ d s, (interval b).search tie
      (leadingPower (fraction (interval b).value (interval b).power 0).1
        (fraction (interval b).value (interval b).power 0).2) 17 1 = (d, s) := ⟨_, _, rfl⟩
  simp only [hsearch] at hfound
  have hd := Binary.pos_of_contains hc hpos hfound
  obtain ⟨n, hn⟩ := stripZeros_append (Nat.toDigits 10 d)
  have hleads := stripZeros_leads hd
  have hdigits := ofDigits_toDigits d
  rw [hn, ofDigits_append, ofDigits_zeros, add_zero] at hdigits
  simp only [shortest, hsearch]
  refine ⟨hleads, ?_⟩
  have hlength : (Nat.toDigits 10 d).length = (stripZeros (Nat.toDigits 10 d)).length + n := by
    have hcount := congrArg List.length hn
    rwa [List.length_append, zeros, List.length_replicate] at hcount
  have hsome : 0 < (stripZeros (Nat.toDigits 10 d)).length := List.length_pos_iff.mpr hleads.ne_nil
  have hpower : s + ((Nat.toDigits 10 d).length - 1 : ℕ) -
      (stripZeros (Nat.toDigits 10 d)).length + 1 = n + s := by omega
  have hcast : (ofDigits (stripZeros (Nat.toDigits 10 d)) : ℚ) * 10 ^ n = d := by
    rw [zeros, List.length_replicate] at hdigits
    exact_mod_cast hdigits
  rw [Digits.value, hpower, zpow_add₀ (by norm_num), zpow_natCast, ← mul_assoc, hcast]
  exact hfound

end BlockTemplate.Decimal
