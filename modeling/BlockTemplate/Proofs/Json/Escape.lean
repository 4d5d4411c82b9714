import BlockTemplate.Json.Parser

/-! Every text survives between quotes: what is written is read up to the closing quote, and stands
for the text again. -/
namespace BlockTemplate.Json
open Text (hexDigit)

/-- The numbers of the control characters, in four digits. -/
theorem hexFour?_control : ∀ n < 0x20,
    hexFour? '0' '0' (hexDigit (n / 16)) (hexDigit (n % 16)) = some n := by decide

/-- A character stands for itself, or as a short escape, or by its number. -/
theorem escapeChar_cases (c : Char) :
    (∃ e, escapeChar c = ['\\', e] ∧ shortEscape? e = some c ∧ e ≠ 'u') ∨
    (c.toNat < 0x20 ∧ escapeChar c =
      ['\\', 'u', '0', '0', hexDigit (c.toNat / 16), hexDigit (c.toNat % 16)]) ∨
    (0x20 ≤ c.toNat ∧ c ≠ '"' ∧ c ≠ '\\' ∧ escapeChar c = [c]) := by
  unfold escapeChar
  split
  · next h => exact .inl ⟨'"', rfl, by rw [h]; rfl, by decide⟩
  split
  · next h => exact .inl ⟨'\\', rfl, by rw [h]; rfl, by decide⟩
  split
  · next h => exact .inl ⟨'b', rfl, by rw [h]; rfl, by decide⟩
  split
  · next h => exact .inl ⟨'t', rfl, by rw [h]; rfl, by decide⟩
  split
  · next h => exact .inl ⟨'n', rfl, by rw [h]; rfl, by decide⟩
  split
  · next h => exact .inl ⟨'f', rfl, by rw [h]; rfl, by decide⟩
  split
  · next h => exact .inl ⟨'r', rfl, by rw [h]; rfl, by decide⟩
  split
  · next h => exact .inr (.inl ⟨h, rfl⟩)
  · next hquote hback _ _ _ _ _ h => exact .inr (.inr ⟨by omega, hquote, hback, rfl⟩)

theorem unescape?_short {e c : Char} (he : shortEscape? e = some c) (hu : e ≠ 'u')
    (rest : List Char) : unescape? ('\\' :: e :: rest) = (unescape? rest).map (c :: ·) := by
  rw [unescape?]
  · simp [he]
  · simp [hu]

theorem unescape?_plain {c : Char} (h : c ≠ '\\') (rest : List Char) :
    unescape? (c :: rest) = (unescape? rest).map (c :: ·) := by
  rw [unescape?]
  · simp [h]
  · simp [h]
  · simp [h]

theorem unescape?_escapeChar (c : Char) (rest : List Char) :
    unescape? (escapeChar c ++ rest) = (unescape? rest).map (c :: ·) := by
  obtain ⟨e, heq, he, hu⟩ | ⟨hlt, heq⟩ | ⟨_, _, hback, heq⟩ := escapeChar_cases c
  · rw [heq]
    exact unescape?_short he hu rest
  · have hhigh : isHighSurrogate c.toNat = false := by simp [isHighSurrogate]; omega
    have hlow : isLowSurrogate c.toNat = false := by simp [isLowSurrogate]; omega
    rw [heq]
    simp [unescape?, hexFour?_control c.toNat hlt, hhigh, hlow]
  · rw [heq]
    exact unescape?_plain hback rest

theorem unescape?_escape (cs : List Char) : unescape? (escape cs) = some cs := by
  induction cs with
  | nil => rfl
  | cons c cs ih =>
    rw [escape] at ih ⊢
    rw [List.flatMap_cons, unescape?_escapeChar, ih]
    rfl

theorem readText?_short {e c : Char} (he : shortEscape? e = some c) (hu : e ≠ 'u')
    (rest : List Char) : readText? ('\\' :: e :: rest) =
      (readText? rest).map fun (body, rest) => ('\\' :: e :: body, rest) := by
  rw [readText?]
  · simp [he]
  · simp [hu]

theorem readText?_plain {c : Char} (hge : 0x20 ≤ c.toNat) (hquote : c ≠ '"') (hback : c ≠ '\\')
    (rest : List Char) : readText? (c :: rest) =
      (readText? rest).map fun (body, rest) => (c :: body, rest) := by
  rw [readText?]
  · simp [hquote, hback, Nat.not_lt.mpr hge]
  · simp [hback]
  · simp [hback]

theorem readText?_escapeChar (c : Char) (rest : List Char) :
    readText? (escapeChar c ++ rest) =
      (readText? rest).map fun (body, rest) => (escapeChar c ++ body, rest) := by
  obtain ⟨e, heq, he, hu⟩ | ⟨hlt, heq⟩ | ⟨hge, hquote, hback, heq⟩ := escapeChar_cases c
  · rw [heq]
    exact readText?_short he hu rest
  · rw [heq]
    simp [readText?, hexFour?_control c.toNat hlt]
  · rw [heq]
    exact readText?_plain hge hquote hback rest

/-- No quote inside ends the text early. -/
theorem readText?_escape (cs rest : List Char) :
    readText? (escape cs ++ '"' :: rest) = some (escape cs, rest) := by
  induction cs with
  | nil => simp [escape, readText?]
  | cons c cs ih =>
    rw [escape] at ih ⊢
    rw [List.flatMap_cons, List.append_assoc, readText?_escapeChar, ih]
    rfl

end BlockTemplate.Json
