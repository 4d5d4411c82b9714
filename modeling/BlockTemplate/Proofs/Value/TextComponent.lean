import BlockTemplate.Proofs.Json.Reading
import BlockTemplate.Value.ItemText

/-! Names and lore lines as they stand in item text: a JSON text inside single quotes. Both layers
can be undone, the quotes from left to right and the JSON text as a whole. -/
namespace BlockTemplate.Item

/-- The text between single quotes: a backslash takes the next character as it is. There is none
if a quote stands bare or a backslash is the last character. -/
def unquote? : List Char → Option (List Char)
  | [] => some []
  | ['\\'] => none
  | '\\' :: c :: rest => (unquote? rest).map (c :: ·)
  | c :: rest => if c = '\x27' then none else (unquote? rest).map (c :: ·)

/-- The text up to the next bare single quote, and what follows that quote. -/
def readQuoted? : List Char → Option (List Char × List Char)
  | [] => none
  | ['\\'] => none
  | '\\' :: c :: rest => (readQuoted? rest).map fun (text, after) => (c :: text, after)
  | c :: rest =>
    if c = '\x27' then some ([], rest)
    else (readQuoted? rest).map fun (text, after) => (c :: text, after)

/-- The text with another text in place of each occurrence of a character. -/
def replaceChar (c : Char) (new : List Char) (cs : List Char) : List Char :=
  cs.flatMap fun d => if d = c then new else [d]

/-- One pass does what two do, the one for backslashes before the one that brings new ones. -/
theorem flatMap_tagChar (cs : List Char) : cs.flatMap tagChar =
    replaceChar '\x27' ['\\', '\x27'] (replaceChar '\\' ['\\', '\\'] cs) := by
  induction cs with
  | nil => rfl
  | cons c cs ih =>
    simp only [replaceChar, List.flatMap_cons, List.flatMap_append] at ih ⊢
    rw [ih, tagChar]
    by_cases hback : c = '\\' <;> by_cases hquote : c = '\x27' <;> simp [hback, hquote]

theorem tagChar_cases (c : Char) :
    (tagChar c = ['\\', c] ∧ (c = '\\' ∨ c = '\x27')) ∨
      (tagChar c = [c] ∧ c ≠ '\\' ∧ c ≠ '\x27') := by
  unfold tagChar
  split
  · next h => exact .inl ⟨by rw [h], .inl h⟩
  · next hback =>
    split
    · next h => exact .inl ⟨by rw [h], .inr h⟩
    · next hquote => exact .inr ⟨rfl, hback, hquote⟩

theorem unquote?_plain {c : Char} (hback : c ≠ '\\') (hquote : c ≠ '\x27') (rest : List Char) :
    unquote? (c :: rest) = (unquote? rest).map (c :: ·) := by
  rw [unquote?]
  · simp [hquote]
  · simp [hback]
  · simp [hback]

theorem unquote?_tagChar (c : Char) (rest : List Char) :
    unquote? (tagChar c ++ rest) = (unquote? rest).map (c :: ·) := by
  obtain ⟨heq, _⟩ | ⟨heq, hback, hquote⟩ := tagChar_cases c
  · rw [heq]
    rfl
  · rw [heq]
    exact unquote?_plain hback hquote rest

theorem unquote?_flatMap (cs : List Char) : unquote? (cs.flatMap tagChar) = some cs := by
  induction cs with
  | nil => rfl
  | cons c cs ih =>
    rw [List.flatMap_cons, unquote?_tagChar, ih]
    rfl

theorem readQuoted?_plain {c : Char} (hback : c ≠ '\\') (hquote : c ≠ '\x27')
    (rest : List Char) : readQuoted? (c :: rest) =
      (readQuoted? rest).map fun (text, after) => (c :: text, after) := by
  rw [readQuoted?]
  · simp [hquote]
  · simp [hback]
  · simp [hback]

/-- What can be unquoted ends at the quote that is put after it. -/
theorem readQuoted?_of_unquote? (body : List Char) {text : List Char}
    (h : unquote? body = some text) (rest : List Char) :
    readQuoted? (body ++ '\x27' :: rest) = some (text, rest) := by
  induction body using unquote?.induct generalizing text with
  | case1 =>
    cases h
    rfl
  | case2 => cases h
  | case3 c body ih =>
    obtain ⟨inner, hinner, rfl⟩ := Option.map_eq_some_iff.1 h
    simp [readQuoted?, ih hinner]
  | case4 body => simp [unquote?] at h
  | case5 c body hlast hpair hquote ih =>
    have hback : c ≠ '\\' := by
      rintro rfl
      cases body with
      | nil => exact hlast rfl rfl
      | cons d body => exact hpair d body rfl rfl
    rw [unquote?_plain hback hquote] at h
    obtain ⟨inner, hinner, rfl⟩ := Option.map_eq_some_iff.1 h
    rw [List.cons_append, readQuoted?_plain hback hquote, ih hinner]
    rfl

/-- The text with its color codes translated if that is asked for. -/
def colored (limits : Limits) (s : String) : String :=
  if limits.translateColors then Text.translateColors s else s

theorem textComponent_eq (limits : Limits) (s : String) :
    textComponent limits s =
      '\x27' :: ((Json.textChars (colored limits s)).flatMap tagChar ++ ['\x27']) := by
  rw [textComponent, Json.textChars, colored]
  by_cases h : limits.translateColors = true
  · simp [h, Text.translateColors]
  · simp [h]

theorem parse?_textChars (s : String) (depth : Nat) :
    (Json.Term.parse? (Json.textChars s)).bind (Json.Term.toData? depth) = some (.text s) := by
  have hnone : ∀ c ∈ ([] : List Char), Json.isBlank c = true := by simp
  have hparse := (Json.Data.text s).parse?_chars Json.compact_blank trivial hnone
  have hterm := (Json.Data.text s).term_toData? trivial depth
  have hflat : (Json.Data.text s).nesting ≤ depth := Nat.zero_le depth
  rw [List.append_nil, Json.Data.chars] at hparse
  rw [hparse, Option.bind_some, hterm, if_pos hflat]

/-- A name or lore line stands between single quotes. What is between them can be unquoted, and is
then a JSON text that denotes the line, with its color codes translated if that is asked for. It is
that JSON text with backslashes doubled and after that quotes escaped, and in any text it ends at
its own closing quote. -/
theorem textComponent_unquotes (limits : Limits) (s : String) :
    ∃ body json, textComponent limits s = '\x27' :: (body ++ ['\x27']) ∧
      body = replaceChar '\x27' ['\\', '\x27'] (replaceChar '\\' ['\\', '\\'] json) ∧
      unquote? body = some json ∧
      (∀ rest, readQuoted? (body ++ '\x27' :: rest) = some (json, rest)) ∧
      ∀ depth, (Json.Term.parse? json).bind (Json.Term.toData? depth) =
        some (.text (if limits.translateColors then Text.translateColors s else s)) := by
  have hbody := unquote?_flatMap (Json.textChars (colored limits s))
  exact ⟨_, _, textComponent_eq limits s, flatMap_tagChar _, hbody,
    readQuoted?_of_unquote? _ hbody, parse?_textChars (colored limits s)⟩

end BlockTemplate.Item
