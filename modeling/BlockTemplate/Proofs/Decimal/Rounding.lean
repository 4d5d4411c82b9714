import BlockTemplate.Decimal.Shortest
import BlockTemplate.Proofs.Decimal.Double
import Mathlib.Algebra.Order.Field.Power
import Mathlib.Algebra.Order.Field.Rat
import Mathlib.Tactic.FieldSimp
import Mathlib.Tactic.Linarith
import Mathlib.Tactic.Ring

/-! Rounding to doubles: what lies in the interval of a double is rounded to it. -/
namespace BlockTemplate.Decimal
open Float.Model Float.Model.UnpackedFloat

/-- What the bits after a mantissa say about the part of a unit that they stand for. -/
def Part : Bool → Bool → ℚ → Prop
  | false, false, r => r = 0
  | false, true, r => 0 < r ∧ r < 1 / 2
  | true, false, r => r = 1 / 2
  | true, true, r => 1 / 2 < r ∧ r < 1

/-- A value cut off after the mantissa. -/
def Cuts (em : ExtendedMantissa) (v : ℚ) : Prop :=
  Part em.roundBit em.stickyBit (v - em.mantissa)

/-- The value is half a unit or less from the number, half a unit only from an even one. -/
def RoundsTo (n : ℕ) (v : ℚ) : Prop :=
  if n % 2 = 0 then n - 1 / 2 ≤ v ∧ v ≤ n + 1 / 2 else n - 1 / 2 < v ∧ v < n + 1 / 2

theorem Part.bounds {round sticky : Bool} {r : ℚ} (h : Part round sticky r) : 0 ≤ r ∧ r < 1 := by
  cases round <;> cases sticky <;> simp only [Part] at h <;> constructor <;> linarith

/-- One more bit goes in front of the part. -/
theorem Part.push {round sticky : Bool} {r : ℚ} (bit : Bool) (h : Part round sticky r) :
    Part bit (round || sticky) ((bit.toNat + r) / 2) := by
  cases bit <;> cases round <;> cases sticky <;> simp [Part] at * <;> (try constructor) <;> linarith

theorem RoundsTo.bounds {n : ℕ} {v : ℚ} (h : RoundsTo n v) : n - 1 / 2 ≤ v ∧ v ≤ n + 1 / 2 := by
  rw [RoundsTo] at h
  split at h
  · exact h
  · exact ⟨h.1.le, h.2.le⟩

/-- Only an even number is half a unit away. -/
theorem RoundsTo.even {n : ℕ} {v : ℚ} (h : RoundsTo n v) (hv : v = n - 1 / 2 ∨ v = n + 1 / 2) :
    n % 2 = 0 := by
  by_contra hodd
  rw [RoundsTo, if_neg hodd] at h
  obtain hv | hv := hv <;> linarith [h.1, h.2]

namespace Cuts
variable {em : ExtendedMantissa} {v : ℚ}

theorem shiftRightOne (h : Cuts em v) : Cuts em.shiftRightOne (v / 2) := by
  have hbit : (em.mantissa % 2 != 0).toNat = em.mantissa % 2 := by
    obtain hm | hm : em.mantissa % 2 = 0 ∨ em.mantissa % 2 = 1 := by omega
    · simp [hm]
    · simp [hm]
  have hm : (em.mantissa : ℚ) = 2 * (em.mantissa / 2 : ℕ) + (em.mantissa % 2 : ℕ) := by
    exact_mod_cast (Nat.div_add_mod em.mantissa 2).symm
  have hpush := Part.push (em.mantissa % 2 != 0) h
  rw [hbit] at hpush
  have hrest : v / 2 - (em.mantissa / 2 : ℕ) = ((em.mantissa % 2 : ℕ) + (v - em.mantissa)) / 2 := by
    linarith
  rw [Cuts, ExtendedMantissa.shiftRightOne, hrest]
  exact hpush

theorem shiftRight (h : Cuts em v) (k : ℕ) : Cuts (em >>> k) (v / 2 ^ k) := by
  induction k with
  | zero => simpa [HShiftRight.hShiftRight, Nat.repeat] using h
  | succ k ih =>
    rw [pow_succ, ← div_div]
    exact ih.shiftRightOne

theorem bounds (h : Cuts em v) : em.mantissa ≤ v ∧ v < em.mantissa + 1 := by
  have hpart := Part.bounds h
  constructor <;> linarith

theorem near (h : Cuts em v) {n : ℕ} (hn : RoundsTo n v) :
    n = em.mantissa ∨ n = em.mantissa + 1 := by
  obtain ⟨hlow, hhigh⟩ := h.bounds
  obtain ⟨hnlow, hnhigh⟩ := hn.bounds
  have hbelow : em.mantissa < n + 1 := by
    have hlt : (em.mantissa : ℚ) < n + 1 := by linarith
    exact_mod_cast hlt
  have habove : n < em.mantissa + 2 := by
    have hlt : (n : ℚ) < em.mantissa + 2 := by linarith
    exact_mod_cast hlt
  omega

/-- The mantissa is rounded to the number that the value rounds to. -/
theorem roundedMantissa (h : Cuts em v) {n : ℕ} (hn : RoundsTo n v) : em.roundedMantissa = n := by
  have hnear := h.near hn
  obtain ⟨hlow, hhigh⟩ := hn.bounds
  obtain ⟨m, round, sticky⟩ := em
  simp only at hnear
  match round, sticky, h with
  | false, false, hpart =>
    simp only [Cuts, Part] at hpart
    obtain rfl | rfl := hnear
    · rfl
    · push_cast at hlow
      linarith
  | false, true, hpart =>
    simp only [Cuts, Part] at hpart
    obtain rfl | rfl := hnear
    · rfl
    · push_cast at hlow
      linarith
  | true, false, hpart =>
    simp only [Cuts, Part] at hpart
    -- Half a unit is left, so the number is the even one of the two.
    change m + m % 2 = n
    obtain rfl | rfl := hnear
    · have heven := hn.even (.inr (by linarith))
      omega
    · have heven := hn.even (.inl (by push_cast; linarith))
      omega
  | true, true, hpart =>
    simp only [Cuts, Part] at hpart
    obtain rfl | rfl := hnear
    · linarith
    · rfl

end Cuts

section Shift
variable {m : ℕ} {e t : ℤ} {a : Accuracy} {v : ℚ}

theorem targetExponent_eq (m : ℕ) (e : ℤ) :
    Format.binary64.targetExponent (totalExponent m e) = max (m.log2 + e - 52) (-1074) := by
  change max ((m.log2 : ℤ) + 1 + e - 53) (-1074) = _
  omega

theorem mantissa_ofMantissaAndAccuracy (m : ℕ) (a : Accuracy) :
    (ExtendedMantissa.ofMantissaAndAccuracy m a).mantissa = m := by
  match a with
  | .exact | .inexact .lt | .inexact .eq | .inexact .gt => rfl

theorem value_bounds (h : Cuts (.ofMantissaAndAccuracy m a) (v / 2 ^ e)) :
    m * 2 ^ e ≤ v ∧ v < (m + 1) * 2 ^ e := by
  have hpos : (0 : ℚ) < 2 ^ e := by positivity
  obtain ⟨hlow, hhigh⟩ := h.bounds
  rw [mantissa_ofMantissaAndAccuracy] at hlow hhigh
  exact ⟨(le_div_iff₀ hpos).mp hlow, (div_lt_iff₀ hpos).mp hhigh⟩

/-- The value has as many bits as its mantissa. -/
theorem log2_bounds (h : Cuts (.ofMantissaAndAccuracy m a) (v / 2 ^ e)) (hm : m ≠ 0) :
    (2 : ℚ) ^ (m.log2 + e) ≤ v ∧ v < 2 ^ (m.log2 + e + 1) := by
  have hpos : (0 : ℚ) < 2 ^ e := by positivity
  obtain ⟨hlow, hhigh⟩ := value_bounds h
  have hbelow : (2 : ℚ) ^ m.log2 ≤ m := by exact_mod_cast Nat.log2_self_le hm
  have habove : (m : ℚ) + 1 ≤ 2 ^ (m.log2 + 1) := by exact_mod_cast Nat.lt_log2_self
  constructor
  · calc (2 : ℚ) ^ (m.log2 + e) = 2 ^ m.log2 * 2 ^ e := by rw [zpow_add₀ two_ne_zero, zpow_natCast]
      _ ≤ m * 2 ^ e := by gcongr
      _ ≤ v := hlow
  · calc v < (m + 1) * 2 ^ e := hhigh
      _ ≤ 2 ^ (m.log2 + 1) * 2 ^ e := by gcongr
      _ = 2 ^ (m.log2 + e + 1) := by
        rw [← zpow_natCast, ← zpow_add₀ two_ne_zero]
        push_cast
        ring_nf

theorem lt_of_two_zpow_lt {a b : ℤ} (h : (2 : ℚ) ^ a < 2 ^ b) : a < b :=
  (zpow_lt_zpow_iff_right₀ one_lt_two).mp h

/-- The exponent that a value is shifted to. -/
theorem targetExponent_of_bounds (h : Cuts (.ofMantissaAndAccuracy m a) (v / 2 ^ e))
    (hfine : e ≤ Format.binary64.targetExponent (totalExponent m e)) (ht : -1074 ≤ t)
    (hhigh : v < 2 ^ (t + 53)) (hlow : 2 ^ (t + 52) ≤ v ∨ t = -1074) :
    Format.binary64.targetExponent (totalExponent m e) = t := by
  rw [targetExponent_eq] at *
  by_cases hm : m = 0
  · -- Nothing is left before the point: the value is below the least double.
    subst hm
    simp only [Nat.log2_zero, Nat.cast_zero, zero_add] at *
    have hlt := (value_bounds h).2
    simp only [Nat.cast_zero, zero_add, one_mul] at hlt
    obtain hlow | hlow := hlow
    · have hexp := lt_of_two_zpow_lt (hlow.trans_lt hlt)
      omega
    · omega
  · obtain ⟨hmlow, hmhigh⟩ := log2_bounds h hm
    have hexp := lt_of_two_zpow_lt (hmlow.trans_lt hhigh)
    obtain hlow | hlow := hlow
    · have hexp' := lt_of_two_zpow_lt (hlow.trans_lt hmhigh)
      omega
    · omega

theorem shiftToTargetExponent_eq (h : Cuts (.ofMantissaAndAccuracy m a) (v / 2 ^ e))
    (ht : Format.binary64.targetExponent (totalExponent m e) = t) (hfine : e ≤ t) :
    ∃ em, shiftToTargetExponent .binary64 m e a = (em, t) ∧ Cuts em (v / 2 ^ t) := by
  have hk : ((t - e).toNat : ℤ) = t - e := by omega
  have hvalue : v / 2 ^ e / 2 ^ (t - e).toNat = v / 2 ^ t := by
    rw [div_div, ← zpow_natCast, ← zpow_add₀ two_ne_zero, hk, add_sub_cancel]
  have hcuts := h.shiftRight (t - e).toNat
  rw [hvalue] at hcuts
  refine ⟨_, ?_, hcuts⟩
  rw [shiftToTargetExponent, ht, shiftToExponent, hk, add_sub_cancel]

/-- A mantissa of 53 bits stays as it is. -/
theorem shiftToTargetExponent_self (hm : m < 2 * leadingBit) (he : -1074 ≤ e) :
    shiftToTargetExponent .binary64 m e .exact = (⟨m, false, false⟩, e) := by
  have hlog : m.log2 ≤ 52 := by
    by_cases hzero : m = 0
    · simp [hzero]
    · exact Nat.le_of_lt_succ ((Nat.log2_lt hzero).mpr hm)
  have hshift : (max ((m.log2 : ℤ) + e - 52) (-1074) - e).toNat = 0 := by omega
  rw [shiftToTargetExponent, targetExponent_eq, shiftToExponent, hshift]
  simp [HShiftRight.hShiftRight, Nat.repeat, ExtendedMantissa.ofMantissaAndAccuracy]

/-- One bit more goes into the exponent. -/
theorem shiftToTargetExponent_carry (he : -1074 ≤ e) :
    shiftToTargetExponent .binary64 (2 * leadingBit) e .exact =
      (⟨leadingBit, false, false⟩, e + 1) := by
  have hlog : (2 * leadingBit).log2 = 53 := by decide
  have hshift : (max ((53 : ℕ) + e - 52) (-1074) - e).toNat = 1 := by omega
  rw [shiftToTargetExponent, targetExponent_eq, shiftToExponent, hlog, hshift]
  rfl

variable (s : Sign) {n : ℕ}

theorem roundWithAccuracy_of_shifts {em last : ExtendedMantissa} {f : ℤ}
    (hfirst : shiftToTargetExponent .binary64 m e a = (em, t))
    (hsecond : shiftToTargetExponent .binary64 em.roundedMantissa t .exact = (last, f))
    (hpos : 0 < last.mantissa) :
    roundWithAccuracy .binary64 s m e a = .finite s last.mantissa f hpos := by
  unfold roundWithAccuracy
  rw [hfirst]
  dsimp only
  rw [hsecond]
  exact dif_neg hpos.ne'

theorem roundWithAccuracy_self (h : Cuts (.ofMantissaAndAccuracy m a) (v / 2 ^ e))
    (ht : Format.binary64.targetExponent (totalExponent m e) = t) (hfine : e ≤ t)
    (hlow : -1074 ≤ t) (hn : RoundsTo n (v / 2 ^ t)) (hpos : 0 < n) (hlt : n < 2 * leadingBit) :
    roundWithAccuracy .binary64 s m e a = .finite s n t hpos := by
  obtain ⟨em, hshift, hcuts⟩ := shiftToTargetExponent_eq h ht hfine
  have hagain : shiftToTargetExponent .binary64 em.roundedMantissa t .exact =
      (⟨n, false, false⟩, t) := by
    rw [hcuts.roundedMantissa hn]
    exact shiftToTargetExponent_self hlt hlow
  exact roundWithAccuracy_of_shifts s hshift hagain hpos

theorem roundWithAccuracy_carry (h : Cuts (.ofMantissaAndAccuracy m a) (v / 2 ^ e))
    (ht : Format.binary64.targetExponent (totalExponent m e) = t) (hfine : e ≤ t)
    (hlow : -1074 ≤ t) (hn : RoundsTo (2 * leadingBit) (v / 2 ^ t)) :
    roundWithAccuracy .binary64 s m e a = .finite s leadingBit (t + 1) (by decide) := by
  obtain ⟨em, hshift, hcuts⟩ := shiftToTargetExponent_eq h ht hfine
  have hagain : shiftToTargetExponent .binary64 em.roundedMantissa t .exact =
      (⟨leadingBit, false, false⟩, t + 1) := by
    rw [hcuts.roundedMantissa hn]
    exact shiftToTargetExponent_carry hlow
  exact roundWithAccuracy_of_shifts s hshift hagain (by decide)

end Shift

/-- What reads back as the double. -/
def Interval.Contains (i : Interval) (v : ℚ) : Prop :=
  if i.closed then i.low * 2 ^ i.power ≤ v ∧ v ≤ i.high * 2 ^ i.power
  else i.low * 2 ^ i.power < v ∧ v < i.high * 2 ^ i.power

namespace Binary
variable {b : Binary} {v : ℚ}

/-- How far the interval goes down, in units of the mantissa. Doubles stand closer together below
the least mantissa of an exponent. -/
def gap (b : Binary) : ℚ := if b.mantissa = leadingBit ∧ -1074 < b.exponent then 1 / 4 else 1 / 2

theorem gap_pos (b : Binary) : 0 < b.gap := by
  rw [gap]
  split <;> norm_num

theorem low_eq (hpos : 0 < b.mantissa) : ((interval b).low : ℚ) = 4 * (b.mantissa - b.gap) := by
  have hfour : ((4 * b.mantissa - 1 : ℕ) : ℚ) = 4 * b.mantissa - 1 := by
    rw [Nat.cast_sub (by omega)]
    norm_num
  have hfour' : ((4 * b.mantissa - 2 : ℕ) : ℚ) = 4 * b.mantissa - 2 := by
    rw [Nat.cast_sub (by omega)]
    norm_num
  by_cases h : b.mantissa = leadingBit ∧ -1074 < b.exponent
  · simp only [interval, gap, h, and_self, decide_true, Bool.and_self, if_true] at *
    linarith
  · have hlow : (interval b).low = 4 * b.mantissa - 2 := by
      simp only [interval]
      rw [if_neg (by simpa using h)]
    rw [hlow, hfour', gap, if_neg h]
    ring

/-- The interval in units of the mantissa. -/
theorem contains_iff (hpos : 0 < b.mantissa) : (interval b).Contains v ↔
    if b.mantissa % 2 = 0 then
      b.mantissa - b.gap ≤ v / 2 ^ b.exponent ∧ v / 2 ^ b.exponent ≤ b.mantissa + 1 / 2
    else b.mantissa - b.gap < v / 2 ^ b.exponent ∧ v / 2 ^ b.exponent < b.mantissa + 1 / 2 := by
  have hunit : (0 : ℚ) < 2 ^ b.exponent := by positivity
  have hquarter : (2 : ℚ) ^ (interval b).power = 2 ^ b.exponent / 4 := by
    rw [interval, zpow_sub₀ two_ne_zero]
    norm_num
  have hlow : (interval b).low * (2 : ℚ) ^ (interval b).power =
      (b.mantissa - b.gap) * 2 ^ b.exponent := by
    rw [low_eq hpos, hquarter]
    ring
  have hhigh : (interval b).high * (2 : ℚ) ^ (interval b).power =
      (b.mantissa + 1 / 2) * 2 ^ b.exponent := by
    rw [hquarter, interval]
    push_cast
    ring
  rw [Interval.Contains, hlow, hhigh, le_div_iff₀ hunit, div_le_iff₀ hunit, lt_div_iff₀ hunit,
    div_lt_iff₀ hunit]
  simp [interval]

theorem contains_bounds (hpos : 0 < b.mantissa) (h : (interval b).Contains v) :
    b.mantissa - b.gap ≤ v / 2 ^ b.exponent ∧ v / 2 ^ b.exponent ≤ b.mantissa + 1 / 2 := by
  rw [contains_iff hpos] at h
  split at h
  · exact h
  · exact ⟨h.1.le, h.2.le⟩

/-- A value that is not below a least mantissa rounds to the mantissa. -/
theorem roundsTo_mantissa (hpos : 0 < b.mantissa) (h : (interval b).Contains v)
    (hside : b.gap = 1 / 2 ∨ b.mantissa ≤ v / 2 ^ b.exponent) :
    RoundsTo b.mantissa (v / 2 ^ b.exponent) := by
  rw [contains_iff hpos] at h
  rw [RoundsTo]
  obtain hgap | hside := hside
  · rwa [hgap] at h
  · split at h
    · next heven =>
      rw [if_pos heven]
      exact ⟨by linarith, h.2⟩
    · next hodd =>
      rw [if_neg hodd]
      exact ⟨by linarith, h.2⟩

theorem value_lt (hc : b.Canonical) (hpos : 0 < b.mantissa) (h : (interval b).Contains v) :
    v < 2 ^ (b.exponent + 53) := by
  have hunit : (0 : ℚ) < 2 ^ b.exponent := by positivity
  have hm : (b.mantissa : ℚ) + 1 ≤ 2 ^ 53 := by exact_mod_cast hc.mantissa
  have hlt : v / 2 ^ b.exponent < 2 ^ 53 := by linarith [(contains_bounds hpos h).2]
  rw [div_lt_iff₀ hunit] at hlt
  rw [add_comm, zpow_add₀ two_ne_zero]
  exact_mod_cast hlt

theorem le_value (hc : b.Canonical) (hpos : 0 < b.mantissa) (h : (interval b).Contains v)
    (hside : b.gap = 1 / 2 ∨ b.mantissa ≤ v / 2 ^ b.exponent) :
    2 ^ (b.exponent + 52) ≤ v ∨ b.exponent = -1074 := by
  have hunit : (0 : ℚ) < 2 ^ b.exponent := by positivity
  by_cases he : b.exponent = -1074
  · exact .inr he
  · have hnormal : leadingBit ≤ b.mantissa := hc.normal.resolve_right he
    have hle : (leadingBit : ℚ) ≤ v / 2 ^ b.exponent := by
      obtain hgap | hside := hside
      · have hne : b.mantissa ≠ leadingBit := by
          intro heq
          have hlow := hc.low
          rw [gap, if_pos ⟨heq, by omega⟩] at hgap
          norm_num at hgap
        have hmore : (leadingBit : ℚ) + 1 ≤ b.mantissa := by
          exact_mod_cast Nat.lt_of_le_of_ne hnormal hne.symm
        linarith [(contains_bounds hpos h).1]
      · have hge : (leadingBit : ℚ) ≤ b.mantissa := by exact_mod_cast hnormal
        linarith
    rw [le_div_iff₀ hunit] at hle
    left
    rw [add_comm, zpow_add₀ two_ne_zero]
    exact_mod_cast hle

/-- Just below a least mantissa, in the halved unit of the exponent before. -/
theorem below_least (hpos : 0 < b.mantissa) (h : (interval b).Contains v)
    (hside : ¬ (b.gap = 1 / 2 ∨ b.mantissa ≤ v / 2 ^ b.exponent)) :
    b.mantissa = leadingBit ∧ -1074 < b.exponent ∧
      2 * leadingBit - 1 / 2 ≤ v / 2 ^ (b.exponent - 1) ∧
      v / 2 ^ (b.exponent - 1) < 2 * leadingBit := by
  obtain ⟨hgap, hlt⟩ := not_or.mp hside
  have hborder : b.mantissa = leadingBit ∧ -1074 < b.exponent := by
    by_contra hno
    exact hgap (by rw [gap, if_neg hno])
  have hlow := (contains_bounds hpos h).1
  have hhalf : v / 2 ^ (b.exponent - 1) = 2 * (v / 2 ^ b.exponent) := by
    rw [zpow_sub₀ two_ne_zero, zpow_one, div_div_eq_mul_div, mul_comm, mul_div_assoc]
  rw [gap, if_pos hborder, hborder.1] at hlow
  rw [hborder.1, not_le] at hlt
  rw [hhalf]
  exact ⟨hborder.1, hborder.2, by linarith, by linarith⟩

/-- What lies in the interval of a double is rounded to it. -/
theorem roundWithAccuracy_eq (hc : b.Canonical) (hpos : 0 < b.mantissa)
    (hv : (interval b).Contains v) {m : ℕ} {e : ℤ} {a : Accuracy}
    (h : Cuts (.ofMantissaAndAccuracy m a) (v / 2 ^ e))
    (hfine : e ≤ Format.binary64.targetExponent (totalExponent m e)) (s : Sign) :
    roundWithAccuracy .binary64 s m e a = .finite s b.mantissa b.exponent hpos := by
  by_cases hside : b.gap = 1 / 2 ∨ b.mantissa ≤ v / 2 ^ b.exponent
  · have ht := targetExponent_of_bounds h hfine hc.low (value_lt hc hpos hv)
      (le_value hc hpos hv hside)
    have hn := roundsTo_mantissa hpos hv hside
    exact roundWithAccuracy_self s h ht (ht ▸ hfine) hc.low hn hpos hc.mantissa
  · -- Below a least mantissa the exponent is one less, and rounding carries into it.
    obtain ⟨hm, he, hlow, hhigh⟩ := below_least hpos hv hside
    have hunit : (0 : ℚ) < 2 ^ (b.exponent - 1) := by positivity
    have hn : RoundsTo (2 * leadingBit) (v / 2 ^ (b.exponent - 1)) := by
      rw [RoundsTo, if_pos (by decide)]
      push_cast
      constructor <;> linarith
    have hbelow : v < 2 ^ (b.exponent - 1 + 53) := by
      rw [div_lt_iff₀ hunit] at hhigh
      rw [add_comm, zpow_add₀ two_ne_zero]
      exact_mod_cast hhigh
    have habove : 2 ^ (b.exponent - 1 + 52) ≤ v := by
      have hle : (leadingBit : ℚ) ≤ v / 2 ^ (b.exponent - 1) := by
        have hone : (1 : ℚ) ≤ leadingBit := by exact_mod_cast (by decide : 1 ≤ leadingBit)
        linarith
      rw [le_div_iff₀ hunit] at hle
      rw [add_comm, zpow_add₀ two_ne_zero]
      exact_mod_cast hle
    have ht := targetExponent_of_bounds h hfine (by omega) hbelow (.inl habove)
    rw [roundWithAccuracy_carry s h ht (ht ▸ hfine) (by omega) hn]
    rw [UnpackedFloat.finite.injEq]
    exact ⟨rfl, hm.symm, sub_add_cancel _ _⟩

end Binary

end BlockTemplate.Decimal
