import BlockTemplate.Code.Base64
import BlockTemplate.Text.Basic

/-! The base64 text of bytes reads back as these bytes, also with white space around it. -/
namespace BlockTemplate.Code.Base64
open Text (isBlank trimChars)

theorem digitValue?_digit : ∀ n < 64, digitValue? (digit n) = some n := by decide

theorem digit_ne_equals : ∀ n < 64, digit n ≠ '=' := by decide

theorem digit_not_blank : ∀ n < 64, isBlank (digit n) = false := by decide

theorem ofNat_eq_of_toNat {n : Nat} {b : UInt8} (h : n = b.toNat) : UInt8.ofNat n = b := by
  rw [h, UInt8.ofNat_toNat]

theorem encode_eq_nil (bytes : List UInt8) (h : encode bytes = []) : bytes = [] := by
  match bytes with
  | [] => rfl
  | [a] => simp [encode] at h
  | [a, b] => simp [encode] at h
  | a :: b :: c :: rest => simp [encode] at h

/-- The four digits of three bytes. -/
theorem group_values (a b c : UInt8) :
    digitValue? (digit (a.toNat / 4)) = some (a.toNat / 4) ∧
    digitValue? (digit (a.toNat % 4 * 16 + b.toNat / 16)) = some (a.toNat % 4 * 16 + b.toNat / 16) ∧
    digitValue? (digit (b.toNat % 16 * 4 + c.toNat / 64)) = some (b.toNat % 16 * 4 + c.toNat / 64) ∧
    digitValue? (digit (c.toNat % 64)) = some (c.toNat % 64) := by
  have ha := a.toNat_lt
  have hb := b.toNat_lt
  have hc := c.toNat_lt
  refine ⟨?_, ?_, ?_, ?_⟩ <;> exact digitValue?_digit _ (by omega)

/-- Their bits come together again in the same bytes. -/
theorem group_bytes (a b c : UInt8) :
    UInt8.ofNat (a.toNat / 4 * 4 + (a.toNat % 4 * 16 + b.toNat / 16) / 16) = a ∧
    UInt8.ofNat ((a.toNat % 4 * 16 + b.toNat / 16) % 16 * 16 +
      (b.toNat % 16 * 4 + c.toNat / 64) / 4) = b ∧
    UInt8.ofNat ((b.toNat % 16 * 4 + c.toNat / 64) % 4 * 64 + c.toNat % 64) = c := by
  have ha := a.toNat_lt
  have hb := b.toNat_lt
  have hc := c.toNat_lt
  refine ⟨?_, ?_, ?_⟩ <;> exact ofNat_eq_of_toNat (by omega)

theorem decodeGroup?_digits (a b c : UInt8) :
    decodeGroup? (digit (a.toNat / 4)) (digit (a.toNat % 4 * 16 + b.toNat / 16))
      (digit (b.toNat % 16 * 4 + c.toNat / 64)) (digit (c.toNat % 64)) = some (a, b, c) := by
  obtain ⟨h1, h2, h3, h4⟩ := group_values a b c
  obtain ⟨ha, hb, hc⟩ := group_bytes a b c
  simp only [decodeGroup?, h1, h2, h3, h4, Option.bind_eq_bind, Option.bind_some, ha, hb, hc]
  rfl

theorem decodeLast?_one (a : UInt8) :
    decodeLast? (digit (a.toNat / 4)) (digit (a.toNat % 4 * 16)) '=' '=' = some [a] := by
  obtain ⟨h1, h2, -, -⟩ := group_values a 0 0
  obtain ⟨ha, -, -⟩ := group_bytes a 0 0
  simp only [UInt8.toNat_zero, Nat.zero_div, Nat.add_zero] at h2 ha
  have hzero : a.toNat % 4 * 16 % 16 = 0 := by omega
  simp only [decodeLast?, h1, h2, Option.bind_eq_bind, Option.bind_some, ha, hzero, and_self,
    if_true]
  rfl

theorem decodeLast?_two (a b : UInt8) :
    decodeLast? (digit (a.toNat / 4)) (digit (a.toNat % 4 * 16 + b.toNat / 16))
      (digit (b.toNat % 16 * 4)) '=' = some [a, b] := by
  obtain ⟨h1, h2, h3, -⟩ := group_values a b 0
  obtain ⟨ha, hb, -⟩ := group_bytes a b 0
  simp only [UInt8.toNat_zero, Nat.zero_div, Nat.add_zero] at h3 hb
  have hne := digit_ne_equals (b.toNat % 16 * 4) (by omega)
  have hzero : b.toNat % 16 * 4 % 4 = 0 := by omega
  simp only [decodeLast?, h1, h2, h3, Option.bind_eq_bind, Option.bind_some, ha, hb, hne, hzero,
    if_false, if_true]
  rfl

theorem decodeLast?_three (a b c : UInt8) :
    decodeLast? (digit (a.toNat / 4)) (digit (a.toNat % 4 * 16 + b.toNat / 16))
      (digit (b.toNat % 16 * 4 + c.toNat / 64)) (digit (c.toNat % 64)) = some [a, b, c] := by
  obtain ⟨h1, h2, h3, h4⟩ := group_values a b c
  obtain ⟨ha, hb, hc⟩ := group_bytes a b c
  have hlt := c.toNat_lt
  have hthird := digit_ne_equals (b.toNat % 16 * 4 + c.toNat / 64) (by omega)
  have hfourth := digit_ne_equals (c.toNat % 64) (by omega)
  simp only [decodeLast?, h1, h2, h3, h4, Option.bind_eq_bind, Option.bind_some, ha, hb, hc, hthird,
    hfourth, if_false]
  rfl

/-- Reading takes four characters at a time and treats the last four apart. -/
theorem decode?_encode (bytes : List UInt8) : decode? (encode bytes) = some bytes := by
  match bytes with
  | [] => rfl
  | [a] => exact decodeLast?_one a
  | [a, b] => exact decodeLast?_two a b
  | [a, b, c] => exact decodeLast?_three a b c
  | a :: b :: c :: d :: rest =>
    have ih := decode?_encode (d :: rest)
    cases hrest : encode (d :: rest) with
    | nil => exact absurd (encode_eq_nil _ hrest) (by simp)
    | cons x xs =>
      rw [hrest] at ih
      rw [encode, hrest, decode?, decodeGroup?_digits, ih]
      · rfl
      · simp

theorem encode_not_blank (bytes : List UInt8) : ∀ c ∈ encode bytes, isBlank c = false := by
  match bytes with
  | [] => simp [encode]
  | [a] =>
    have ha := a.toNat_lt
    simp only [encode, List.forall_mem_cons]
    exact ⟨digit_not_blank _ (by omega), digit_not_blank _ (by omega), by decide, by decide,
      by simp⟩
  | [a, b] =>
    have ha := a.toNat_lt
    have hb := b.toNat_lt
    simp only [encode, List.forall_mem_cons]
    exact ⟨digit_not_blank _ (by omega), digit_not_blank _ (by omega),
      digit_not_blank _ (by omega), by decide, by simp⟩
  | a :: b :: c :: rest =>
    have ha := a.toNat_lt
    have hb := b.toNat_lt
    have hc := c.toNat_lt
    simp only [encode, List.forall_mem_cons]
    exact ⟨digit_not_blank _ (by omega), digit_not_blank _ (by omega),
      digit_not_blank _ (by omega), digit_not_blank _ (by omega), encode_not_blank rest⟩

theorem dropWhile_blank (before cs : List Char) (hbefore : ∀ c ∈ before, isBlank c = true)
    (hcs : ∀ c ∈ cs, isBlank c = false) : (before ++ cs).dropWhile isBlank = cs := by
  rw [List.dropWhile_append_of_pos hbefore]
  cases cs with
  | nil => rfl
  | cons c cs => rw [List.dropWhile_cons_of_neg (by simp [hcs c])]

theorem trimChars_padded (before cs after : List Char) (hbefore : ∀ c ∈ before, isBlank c = true)
    (hafter : ∀ c ∈ after, isBlank c = true) (hcs : ∀ c ∈ cs, isBlank c = false) :
    trimChars (before ++ cs ++ after) = cs := by
  cases cs with
  | nil =>
    have hall : ∀ c ∈ before ++ after, isBlank c = true := by
      simpa [or_imp, forall_and] using ⟨hbefore, hafter⟩
    have hnone := dropWhile_blank (before ++ after) [] hall (by simp)
    simp only [List.append_nil] at hnone ⊢
    rw [trimChars, hnone]
    rfl
  | cons c cs =>
    have hfront : (before ++ (c :: cs) ++ after).dropWhile isBlank = (c :: cs) ++ after := by
      rw [List.append_assoc, List.dropWhile_append_of_pos hbefore, List.cons_append,
        List.dropWhile_cons_of_neg (by simp [hcs c])]
    have hback := dropWhile_blank after.reverse (c :: cs).reverse (by simpa using hafter)
      (fun x hx => hcs x (List.mem_reverse.mp hx))
    rw [trimChars, hfront, List.reverse_append, hback, List.reverse_reverse]

end BlockTemplate.Code.Base64
