import BlockTemplate.Proofs.Decimal.Shortest
import BlockTemplate.Proofs.Json.Number

/-! A finite double is written as a number that is read back as the same double. -/
namespace BlockTemplate.Json
open Decimal

/-- The parts of the text of digits: positional in the range of small powers, else with the point
after the first digit. -/
def digitsText (negative : Bool) (d : Digits) : NumberText :=
  if ¬ (-5 ≤ d.power ∧ d.power < 16) then
    { negative, whole := d.digits.take 1, fraction := d.digits.drop 1
      exponent := some (d.power < 0, Nat.toDigits 10 d.power.natAbs) }
  else if d.power < 0 then
    { negative, whole := ['0'], fraction := zeros ((-d.power).toNat - 1) ++ d.digits }
  else if d.digits.length ≤ d.power.toNat + 1 then
    { negative, whole := d.digits ++ zeros (d.power.toNat + 1 - d.digits.length)
      fraction := ['0'] }
  else
    { negative, whole := d.digits.take (d.power.toNat + 1)
      fraction := d.digits.drop (d.power.toNat + 1) }

/-- The parts of the text that a double has in documents. -/
def realText (x : Float) : NumberText :=
  let b := binary x
  if b.mantissa = 0 then { negative := b.negative, whole := ['0'], fraction := ['0'] }
  else digitsText b.negative (shortest .even b)

/-- The number that a text stands for, without its sign. -/
def NumberText.magnitude (n : NumberText) : ℚ :=
  ofDigits (n.whole ++ n.fraction) * 10 ^ (n.exponentValue - n.fraction.length)

section Digits
variable (negative : Bool) {d : Digits}

theorem digitsText_negative : (digitsText negative d).negative = negative := by
  fun_cases digitsText negative d <;> rfl

theorem exponentValue_written (n : NumberText) (p : ℤ)
    (h : n.exponent = some (decide (p < 0), Nat.toDigits 10 p.natAbs)) : n.exponentValue = p := by
  rw [NumberText.exponentValue, h]
  by_cases hp : p < 0
  · simp only [hp, decide_true, ofDigits_toDigits]
    omega
  · simp only [hp, decide_false, ofDigits_toDigits]
    omega

theorem ofDigits_zeros_append (n : ℕ) (cs : List Char) :
    ofDigits (zeros n ++ cs) = ofDigits cs := by
  rw [ofDigits_append, ofDigits_zeros, zero_mul, zero_add]

theorem digitsText_magnitude (h : Leads d.digits) :
    (digitsText negative d).magnitude = d.value := by
  have hlength : 0 < d.digits.length := List.length_pos_iff.mpr h.ne_nil
  rw [NumberText.magnitude, Digits.value]
  fun_cases digitsText negative d with
  | case1 hrange =>
    rw [exponentValue_written _ d.power rfl]
    simp only [List.take_append_drop, List.length_drop]
    congr 2
    omega
  | case2 hrange hneg =>
    have hdigits : ofDigits (['0'] ++ (zeros ((-d.power).toNat - 1) ++ d.digits)) =
        ofDigits d.digits := by
      rw [← ofDigits_zeros_append ((-d.power).toNat - 1) d.digits]
      exact ofDigits_zeros_append 1 _
    simp only [hdigits]
    simp only [NumberText.exponentValue, List.length_append, zeros, List.length_replicate]
    congr 2
    omega
  | case3 hrange hneg hwhole =>
    have hdigits : ofDigits (d.digits ++ zeros (d.power.toNat + 1 - d.digits.length) ++ ['0']) =
        ofDigits d.digits * 10 ^ (d.power.toNat + 1 - d.digits.length) * 10 := by
      rw [ofDigits_append, ofDigits_append, ofDigits_zeros, zeros, List.length_replicate]
      rfl
    have hpower : d.power - d.digits.length + 1 =
        (d.power.toNat + 1 - d.digits.length : ℕ) := by omega
    simp only [hdigits]
    simp only [NumberText.exponentValue, hpower, zpow_natCast, List.length_singleton, zero_sub,
      Nat.cast_one, zpow_neg_one]
    push_cast
    field_simp
  | case4 hrange hneg hsplit =>
    simp only [NumberText.exponentValue, List.take_append_drop, List.length_drop]
    congr 2
    omega

theorem isDigit_of_mem_zeros {n : ℕ} {c : Char} (h : c ∈ zeros n) : isDigit c = true := by
  rw [List.eq_of_mem_replicate h]
  rfl

theorem head?_take {cs : List Char} {n : ℕ} (h : cs.head? ≠ some '0') (hn : 0 < n) :
    (cs.take n).head? ≠ some '0' := by
  rwa [List.head?_take, if_neg hn.ne']

theorem digitsText_wellFormed (h : Leads d.digits) : (digitsText negative d).WellFormed := by
  have hlength : 0 < d.digits.length := List.length_pos_iff.mpr h.ne_nil
  have hdrop (n : ℕ) : ∀ c ∈ d.digits.drop n, isDigit c = true :=
    fun c hc => h.digits c (List.mem_of_mem_drop hc)
  have htake (n : ℕ) : ∀ c ∈ d.digits.take n, isDigit c = true :=
    fun c hc => h.digits c (List.mem_of_mem_take hc)
  have hzeros (n : ℕ) : ∀ c ∈ zeros n, isDigit c = true := fun c hc => isDigit_of_mem_zeros hc
  fun_cases digitsText negative d with
  | case1 hrange =>
    constructor
    · exact htake 1
    · simpa using h.ne_nil
    · exact .inr (head?_take h.noZero (by decide))
    · exact hdrop 1
    · rintro p ⟨⟩
      exact ⟨Nat.toDigits_ne_nil, fun c hc => isDigit_of_mem_toDigits hc⟩
  | case2 hrange hneg =>
    constructor
    · exact fun c hc => hzeros 1 c hc
    · simp
    · exact .inl rfl
    · simpa [or_imp, forall_and] using ⟨hzeros _, h.digits⟩
    · simp
  | case3 hrange hneg hwhole =>
    constructor
    · simpa [or_imp, forall_and] using ⟨h.digits, hzeros _⟩
    · simp [h.ne_nil]
    · rw [List.head?_append_of_ne_nil _ h.ne_nil]
      exact .inr h.noZero
    · exact fun c hc => hzeros 1 c hc
    · simp
  | case4 hrange hneg hsplit =>
    constructor
    · exact htake _
    · simpa using h.ne_nil
    · exact .inr (head?_take h.noZero (by omega))
    · exact hdrop _
    · simp

/-- A number with a fraction or an exponent is no integer. -/
theorem digitsText_toInt? (h : Leads d.digits) : (digitsText negative d).toInt? = none := by
  have hwritten : (!(digitsText negative d).fraction.isEmpty ||
      (digitsText negative d).exponent.isSome) = true := by
    fun_cases digitsText negative d with
    | case1 hrange => simp
    | case2 hrange hneg => simp [h.ne_nil]
    | case3 hrange hneg hwhole => simp
    | case4 hrange hneg hsplit => simpa using hsplit
  rw [NumberText.toInt?, if_pos hwritten]

theorem fractionChars_of_ne_nil {cs : List Char} (h : cs ≠ []) : fractionChars cs = '.' :: cs := by
  cases cs with
  | nil => exact absurd rfl h
  | cons c cs => rfl

theorem fractionChars_drop_one (cs : List Char) :
    fractionChars (cs.drop 1) = (if cs.length ≤ 1 then [] else ['.']) ++ cs.drop 1 := by
  match cs with
  | [] | [_] | _ :: _ :: _ => simp [fractionChars]

/-- The text of the digits, as the printer lays it out. -/
theorem digitsText_chars (h : Leads d.digits) : (digitsText negative d).chars =
    (if negative then ['-'] else []) ++
      (if -5 ≤ d.power && d.power < 16 then
        positional d ++ (if (d.digits.length : ℤ) ≤ d.power + 1 then ['.', '0'] else [])
      else scientific d) := by
  have hlength : 0 < d.digits.length := List.length_pos_iff.mpr h.ne_nil
  rw [NumberText.chars]
  fun_cases digitsText negative d with
  | case1 hrange =>
    have hout : (decide (-5 ≤ d.power) && decide (d.power < 16)) = false := by simpa using hrange
    rw [fractionChars_drop_one]
    simp [hout, scientific, exponentChars]
  | case2 hrange hneg =>
    have hin : (decide (-5 ≤ d.power) && decide (d.power < 16)) = true := by simpa using hrange
    have hshort : ¬ (d.digits.length : ℤ) ≤ d.power + 1 := by omega
    rw [fractionChars_of_ne_nil (by simp [h.ne_nil])]
    simp [hin, positional, hneg, hshort, exponentChars]
  | case3 hrange hneg hwhole =>
    have hin : (decide (-5 ≤ d.power) && decide (d.power < 16)) = true := by simpa using hrange
    have hshort : (d.digits.length : ℤ) ≤ d.power + 1 := by omega
    simp [hin, positional, hneg, hwhole, hshort, exponentChars, fractionChars]
  | case4 hrange hneg hsplit =>
    have hin : (decide (-5 ≤ d.power) && decide (d.power < 16)) = true := by simpa using hrange
    have hshort : ¬ (d.digits.length : ℤ) ≤ d.power + 1 := by omega
    rw [fractionChars_of_ne_nil (by simpa using hsplit)]
    simp [hin, positional, hneg, hsplit, hshort, exponentChars]

end Digits

section Double
variable {x : Float}

/-- A text with the double's sign and a magnitude in its interval is read as the double. -/
theorem toFloat_eq {n : NumberText} {b : Binary} (hc : b.Canonical) (hpos : 0 < b.mantissa)
    (hneg : n.negative = b.negative) (hv : (interval b).Contains n.magnitude) :
    n.toFloat = b.toFloat := by
  have hscaled : scaled (ofDigits (n.whole ++ n.fraction)) (n.exponentValue - n.fraction.length) =
      { b with negative := false : Binary }.toFloat :=
    scaled_eq ⟨hc.mantissa, hc.low, hc.high, hc.normal⟩ rfl hpos hv
  rw [NumberText.toFloat, Decimal.toFloat, hscaled, hneg]
  obtain ⟨negative, mantissa, exponent⟩ := b
  cases negative with
  | false => rfl
  | true => exact Binary.neg_toFloat ⟨hc.mantissa, hc.low, hc.high, hc.normal⟩

theorem zero_eq_toFloat : (0.0 : Float) = Binary.toFloat ⟨false, 0, -1074⟩ :=
  eq_of_toBits (by decide +kernel)

theorem neg_zero_eq_toFloat : (-0.0 : Float) = Binary.toFloat ⟨true, 0, -1074⟩ :=
  eq_of_toBits (by decide +kernel)

theorem toFloat_zeros {b : Binary} (hc : b.Canonical) (hzero : b.mantissa = 0) :
    NumberText.toFloat { negative := b.negative, whole := ['0'], fraction := ['0'] } =
      b.toFloat := by
  have hexponent : b.exponent = -1074 := by
    obtain hnormal | hexponent := hc.normal
    · rw [hzero] at hnormal
      exact absurd hnormal (by decide)
    · exact hexponent
  obtain ⟨negative, mantissa, exponent⟩ := b
  subst hzero hexponent
  cases negative with
  | false => exact zero_eq_toFloat
  | true => exact neg_zero_eq_toFloat

/-- The text of a finite double is read as the double. -/
theorem realText_toFloat (h : x.isFinite = true) : (realText x).toFloat = x := by
  have hc := binary_canonical h
  have hx : (realText x).toFloat = (binary x).toFloat := by
    by_cases hzero : (binary x).mantissa = 0
    · rw [realText, if_pos hzero]
      exact toFloat_zeros hc hzero
    · have hpos : 0 < (binary x).mantissa := Nat.pos_of_ne_zero hzero
      obtain ⟨hleads, hcontains⟩ := shortest_contains .even hc hpos
      rw [← digitsText_magnitude (binary x).negative hleads] at hcontains
      rw [realText, if_neg hzero]
      exact toFloat_eq hc hpos (digitsText_negative _) hcontains
  rw [hx, toFloat_binary h]

theorem realText_toData? (h : x.isFinite = true) : (realText x).toData? = some (.real x) := by
  have hint : (realText x).toInt? = none := by
    by_cases hzero : (binary x).mantissa = 0
    · rw [realText, if_pos hzero]
      rfl
    · have hleads := (shortest_contains .even (binary_canonical h) (Nat.pos_of_ne_zero hzero)).1
      rw [realText, if_neg hzero]
      exact digitsText_toInt? _ hleads
  rw [NumberText.toData?, hint, realText_toFloat h]
  simp [h]

theorem realText_wellFormed (h : x.isFinite = true) : (realText x).WellFormed := by
  by_cases hzero : (binary x).mantissa = 0
  · rw [realText, if_pos hzero]
    constructor <;> simp [isDigit]
  · have hleads := (shortest_contains .even (binary_canonical h) (Nat.pos_of_ne_zero hzero)).1
    rw [realText, if_neg hzero]
    exact digitsText_wellFormed _ hleads

theorem realText_chars (h : x.isFinite = true) : (realText x).chars = realChars x := by
  rw [realChars, if_pos h, documentChars]
  by_cases hzero : (binary x).mantissa = 0
  · rw [realText, if_pos hzero, if_pos hzero]
    simp [NumberText.chars, fractionChars, exponentChars, signChars]
  · have hleads := (shortest_contains .even (binary_canonical h) (Nat.pos_of_ne_zero hzero)).1
    rw [realText, if_neg hzero, if_neg hzero, digitsText_chars _ hleads]
    change signChars (binary x) ++ _ = _
    dsimp only
    split
    · rw [List.append_assoc]
    · rfl

end Double
end BlockTemplate.Json
