import BlockTemplate.Proofs.Json.Written

/-! Reading undoes writing: in every style whose breaks are blanks, the text of data is read as the
term of the data. -/
namespace BlockTemplate.Json

/-- A style that adds blanks only. -/
structure Style.Blank (style : Style) : Prop where
  lineBreak : ∀ depth, ∀ c ∈ style.lineBreak depth, isBlank c = true
  afterColon : ∀ c ∈ style.afterColon, isBlank c = true

theorem compact_blank : compact.Blank := ⟨by simp [compact], by simp [compact]⟩

theorem pretty_blank : pretty.Blank where
  lineBreak depth := by
    refine List.forall_mem_cons.2 ⟨rfl, fun c hc => ?_⟩
    rw [List.eq_of_mem_replicate hc]
    rfl
  afterColon := List.forall_mem_singleton.2 rfl

theorem skipBlanks_append {blanks : List Char} (h : ∀ c ∈ blanks, isBlank c = true)
    (cs : List Char) : skipBlanks (blanks ++ cs) = skipBlanks cs :=
  List.dropWhile_append_of_pos h

theorem skipBlanks_cons {c : Char} (h : isBlank c = false) (cs : List Char) :
    skipBlanks (c :: cs) = c :: cs :=
  List.dropWhile_cons_of_neg (by simp [h])

theorem readTerm?_skipBlanks {blanks : List Char} (h : ∀ c ∈ blanks, isBlank c = true) (n : Nat)
    (cs : List Char) : readTerm? n (blanks ++ cs) = readTerm? n cs := by
  cases n with
  | zero => rfl
  | succ n => simp only [readTerm?, skipBlanks_append h]

theorem NumberText.WellFormed.chars_head {t : NumberText} (h : t.WellFormed) :
    ∃ c cs, t.chars = c :: cs ∧ (c = '-' ∨ Decimal.isDigit c) := by
  cases hneg : t.negative with
  | true =>
    rw [NumberText.chars, hneg]
    exact ⟨'-', _, rfl, .inl rfl⟩
  | false =>
    cases hw : t.whole with
    | nil => exact absurd hw h.someWhole
    | cons c cs =>
      rw [NumberText.chars, hneg, hw]
      exact ⟨c, _, rfl, .inr (h.whole c (by simp [hw]))⟩

/-- A number starts like no other term. -/
theorem number_head_ne {c x : Char} (h : c = '-' ∨ Decimal.isDigit c)
    (hx : (x ≠ '-' && !Decimal.isDigit x) = true) : c ≠ x := by
  rintro rfl
  simp only [ne_eq, decide_not, Bool.and_eq_true, Bool.not_eq_eq_eq_not, Bool.not_true,
    decide_eq_false_iff_not] at hx
  exact h.elim hx.1 (by simp [hx.2])

theorem number_head_not_blank {c : Char} (h : c = '-' ∨ Decimal.isDigit c) :
    isBlank c = false := by
  simp [isBlank, number_head_ne h (x := ' ') rfl, number_head_ne h (x := '\t') rfl,
    number_head_ne h (x := '\n') rfl, number_head_ne h (x := '\r') rfl]

theorem readTerm?_number {t : NumberText} (h : t.WellFormed) (n : Nat) {rest : List Char}
    (hr : endsNumber rest = true) :
    readTerm? (n + 1) (t.chars ++ rest) = some (.number t, rest) := by
  have hread := readNumber?_chars h hr
  obtain ⟨c, cs, heq, hc⟩ := h.chars_head
  rw [heq, List.cons_append] at hread ⊢
  rw [readTerm?, skipBlanks_cons (number_head_not_blank hc)]
  split
  case h_7 => exact hread
  all_goals exact absurd (List.cons.inj ‹_›).1 (number_head_ne hc rfl)

theorem endsNumber_blanks {blanks rest : List Char} (h : ∀ c ∈ blanks, isBlank c = true)
    (hr : endsNumber rest = true) : endsNumber (blanks ++ rest) = true := by
  cases blanks with
  | nil => exact hr
  | cons b blanks =>
    have hb : isBlank b = true := h b (by simp)
    simp only [isBlank, Bool.or_eq_true, decide_eq_true_eq] at hb
    obtain ((rfl | rfl) | rfl) | rfl := hb <;> rfl

/-- Data starts with what is neither a blank nor the end of an array. -/
theorem Data.chars_head (style : Style) (depth : Nat) (d : Data) (h : d.Readable) :
    ∃ c cs, d.chars style depth = c :: cs ∧ isBlank c = false ∧ c ≠ ']' := by
  match d with
  | .null => exact ⟨'n', _, by rw [Data.chars], rfl, by decide⟩
  | .bool true => exact ⟨'t', _, by rw [Data.chars], rfl, by decide⟩
  | .bool false => exact ⟨'f', _, by rw [Data.chars], rfl, by decide⟩
  | .integer n =>
    obtain ⟨c, cs, heq, hc⟩ := (intText_wellFormed n).chars_head
    rw [intText_chars] at heq
    exact ⟨c, cs, by rw [Data.chars, heq], number_head_not_blank hc, number_head_ne hc rfl⟩
  | .real x =>
    obtain ⟨c, cs, heq, hc⟩ := (realText_wellFormed h).chars_head
    rw [realText_chars h] at heq
    exact ⟨c, cs, by rw [Data.chars, heq], number_head_not_blank hc, number_head_ne hc rfl⟩
  | .text s => exact ⟨'"', _, by rw [Data.chars, textChars], rfl, by decide⟩
  | .array [] => exact ⟨'[', _, by rw [Data.chars], rfl, by decide⟩
  | .array (_ :: _) => exact ⟨'[', _, by rw [Data.chars], rfl, by decide⟩
  | .object [] => exact ⟨'\x7b', _, by rw [Data.chars], rfl, by decide⟩
  | .object ((_, _) :: _) => exact ⟨'\x7b', _, by rw [Data.chars], rfl, by decide⟩

section Sequences
variable {α : Type} {item : Reader α} {closing : Char} {cs rest after : List Char} {a : α}

theorem readItems?_last (n : Nat) (hitem : item cs = some (a, rest))
    (hrest : skipBlanks rest = closing :: after) :
    readItems? item closing (n + 1) cs = some ([a], after) := by
  simp [readItems?, hitem, hrest]

theorem readItems?_next {n : Nat} {more : List Char} {others : List α}
    (hitem : item cs = some (a, rest)) (hrest : skipBlanks rest = ',' :: more)
    (hclosing : ',' ≠ closing) (hmore : readItems? item closing n more = some (others, after)) :
    readItems? item closing (n + 1) cs = some (a :: others, after) := by
  simp [readItems?, hitem, hrest, hclosing, hmore]

theorem readSequence?_items {c : Char} (n : Nat) (h : skipBlanks cs = c :: rest)
    (hc : c ≠ closing) :
    readSequence? item closing n cs = readItems? item closing n (c :: rest) := by
  simp [readSequence?, h, hc]

end Sequences

/-- Items with commas between them. -/
def itemsChars (style : Style) (depth : Nat) : List Data → List Char
  | [] => []
  | d :: rest => d.chars style depth ++ listChars style depth rest

/-- Fields with commas between them. -/
def fieldListChars (style : Style) (depth : Nat) : List (String × Data) → List Char
  | [] => []
  | (key, d) :: rest =>
    textChars key ++ ':' :: (style.afterColon ++ d.chars style depth ++
      fieldsChars style depth rest)

theorem listChars_cons (style : Style) (depth : Nat) (d : Data) (rest : List Data) :
    listChars style depth (d :: rest) =
      ',' :: (style.lineBreak depth ++ itemsChars style depth (d :: rest)) := by
  simp [listChars, itemsChars]

theorem fieldsChars_cons (style : Style) (depth : Nat) (f : String × Data)
    (rest : List (String × Data)) : fieldsChars style depth (f :: rest) =
      ',' :: (style.lineBreak depth ++ fieldListChars style depth (f :: rest)) := by
  simp [fieldsChars, fieldListChars]

theorem array_chars (style : Style) (depth : Nat) (d : Data) (rest : List Data) :
    (Data.array (d :: rest)).chars style depth = '[' :: (style.lineBreak (depth + 1) ++
      (itemsChars style (depth + 1) (d :: rest) ++ (style.lineBreak depth ++ [']']))) := by
  simp [Data.chars, itemsChars]

theorem object_chars (style : Style) (depth : Nat) (f : String × Data)
    (rest : List (String × Data)) :
    (Data.object (f :: rest)).chars style depth = '\x7b' :: (style.lineBreak (depth + 1) ++
      (fieldListChars style (depth + 1) (f :: rest) ++ (style.lineBreak depth ++ ['\x7d']))) := by
  simp [Data.chars, fieldListChars]

theorem readTerm?_text (n : Nat) (s : String) (rest : List Char) :
    readTerm? (n + 1) (textChars s ++ rest) = some (.text (escape s.toList), rest) := by
  have htext : textChars s ++ rest = '"' :: (escape s.toList ++ '"' :: rest) := by
    simp [textChars]
  rw [htext, readTerm?, skipBlanks_cons rfl]
  simp only [readText?_escape, Option.map_some]

theorem readField?_chars {value : Reader Term} {blanks cs after : List Char} {t : Term}
    (hblanks : ∀ c ∈ blanks, isBlank c = true) (key : String)
    (hvalue : value cs = some (t, after)) :
    readField? value (blanks ++ (textChars key ++ ':' :: cs)) =
      some ((escape key.toList, t), after) := by
  have htext : textChars key ++ ':' :: cs = '"' :: (escape key.toList ++ '"' :: ':' :: cs) := by
    simp [textChars]
  rw [htext, readField?, skipBlanks_append hblanks, skipBlanks_cons rfl]
  simp [readText?_escape, skipBlanks_cons (c := ':') rfl, hvalue]

mutual

/-- The text of data is read as its term, whatever the blanks of the style. -/
theorem Data.readTerm?_chars {style : Style} (hstyle : style.Blank) (depth : Nat) (d : Data)
    (h : d.Readable) {n : Nat} (hn : (d.chars style depth).length ≤ n) (rest : List Char)
    (hr : endsNumber rest = true) :
    readTerm? (n + 1) (d.chars style depth ++ rest) = some (d.term, rest) := by
  match d with
  | .null => simp [Data.chars, readTerm?, Data.term, skipBlanks_cons (c := 'n') rfl]
  | .bool true => simp [Data.chars, readTerm?, Data.term, skipBlanks_cons (c := 't') rfl]
  | .bool false => simp [Data.chars, readTerm?, Data.term, skipBlanks_cons (c := 'f') rfl]
  | .integer n =>
    rw [Data.chars, ← intText_chars]
    exact readTerm?_number (intText_wellFormed n) _ hr
  | .real x =>
    rw [Data.chars, ← realText_chars h]
    exact readTerm?_number (realText_wellFormed h) _ hr
  | .text s => exact readTerm?_text n s rest
  | .array [] =>
    simp [Data.chars, readTerm?, Data.term, termsOf, skipBlanks_cons (c := '[') rfl,
      skipBlanks_cons (c := ']') rfl, readSequence?]
  | .array (d :: items) =>
    rw [array_chars] at hn ⊢
    simp only [List.length_cons, List.length_append, List.length_nil] at hn
    obtain ⟨c, cs, heq, hblank, hc⟩ := d.chars_head style (depth + 1) h.1
    have hitems := readItems?_chars hstyle (depth + 1) depth (d :: items) (by simp) h (m := n)
      (n := n) (by omega) (by omega) [] (by simp) rest
    rw [itemsChars, heq] at hitems ⊢
    simp only [List.cons_append, List.append_assoc, List.nil_append] at hitems ⊢
    rw [readTerm?, skipBlanks_cons rfl]
    simp only []
    rw [readSequence?_items n _ hc, hitems]
    · rfl
    · rw [skipBlanks_append (hstyle.lineBreak _), skipBlanks_cons hblank]
  | .object [] =>
    simp [Data.chars, readTerm?, Data.term, fieldTerms, skipBlanks_cons (c := '\x7b') rfl,
      skipBlanks_cons (c := '\x7d') rfl, readSequence?]
  | .object ((key, d) :: fields) =>
    rw [object_chars] at hn ⊢
    simp only [List.length_cons, List.length_append, List.length_nil] at hn
    have hfields := readItems?_fieldChars hstyle (depth + 1) depth ((key, d) :: fields) (by simp) h
      (m := n) (n := n) (by omega) (by omega) [] (by simp) rest
    rw [fieldListChars, textChars] at hfields ⊢
    simp only [List.cons_append, List.append_assoc, List.nil_append] at hfields ⊢
    rw [readTerm?, skipBlanks_cons rfl]
    simp only []
    rw [readSequence?_items n _ (by decide : '"' ≠ '\x7d'), hfields]
    · rfl
    · rw [skipBlanks_append (hstyle.lineBreak _), skipBlanks_cons rfl]

theorem readItems?_chars {style : Style} (hstyle : style.Blank) (depth outer : Nat)
    (items : List Data) (hne : items ≠ []) (h : ReadableList items) {m n : Nat}
    (hm : (itemsChars style depth items).length < m)
    (hn : (itemsChars style depth items).length < n) (blanks : List Char)
    (hblanks : ∀ c ∈ blanks, isBlank c = true) (rest : List Char) :
    readItems? (readTerm? m) ']' n (blanks ++ (itemsChars style depth items ++
      (style.lineBreak outer ++ ']' :: rest))) = some (termsOf items, rest) := by
  obtain ⟨m, rfl⟩ : ∃ k, m = k + 1 := ⟨m - 1, by omega⟩
  obtain ⟨n, rfl⟩ : ∃ k, n = k + 1 := ⟨n - 1, by omega⟩
  match items with
  | [d] =>
    have hd := d.readTerm?_chars hstyle depth h.1 (n := m)
      (by simp [itemsChars] at hm; omega) _
      (endsNumber_blanks (hstyle.lineBreak outer) (rfl : endsNumber (']' :: rest) = true))
    apply readItems?_last
    · rw [readTerm?_skipBlanks hblanks]
      simpa [itemsChars, listChars] using hd
    · rw [skipBlanks_append (hstyle.lineBreak _), skipBlanks_cons rfl]
  | d :: e :: items =>
    rw [itemsChars, listChars_cons] at hm hn ⊢
    simp only [List.length_cons, List.length_append] at hm hn
    have hd := d.readTerm?_chars hstyle depth h.1 (n := m) (by omega)
      (',' :: (style.lineBreak depth ++ (itemsChars style depth (e :: items) ++
        (style.lineBreak outer ++ ']' :: rest)))) rfl
    have hothers := readItems?_chars hstyle depth outer (e :: items) (by simp) h.2 (m := m + 1)
      (n := n) (by omega) (by omega) _ (hstyle.lineBreak depth) rest
    rw [← readTerm?_skipBlanks hblanks] at hd
    rw [List.append_assoc, List.cons_append, List.append_assoc]
    exact readItems?_next hd (skipBlanks_cons rfl _) (by decide) hothers

theorem readItems?_fieldChars {style : Style} (hstyle : style.Blank) (depth outer : Nat)
    (fields : List (String × Data)) (hne : fields ≠ []) (h : ReadableFields fields) {m n : Nat}
    (hm : (fieldListChars style depth fields).length < m)
    (hn : (fieldListChars style depth fields).length < n) (blanks : List Char)
    (hblanks : ∀ c ∈ blanks, isBlank c = true) (rest : List Char) :
    readItems? (readField? (readTerm? m)) '\x7d' n (blanks ++ (fieldListChars style depth fields ++
      (style.lineBreak outer ++ '\x7d' :: rest))) = some (fieldTerms fields, rest) := by
  obtain ⟨m, rfl⟩ : ∃ k, m = k + 1 := ⟨m - 1, by omega⟩
  obtain ⟨n, rfl⟩ : ∃ k, n = k + 1 := ⟨n - 1, by omega⟩
  match fields with
  | [(key, d)] =>
    simp only [fieldListChars, fieldsChars, List.append_nil, List.length_append,
      List.length_cons] at hm
    have hd := d.readTerm?_chars hstyle depth h.1 (n := m) (by omega) _
      (endsNumber_blanks (hstyle.lineBreak outer) (rfl : endsNumber ('\x7d' :: rest) = true))
    rw [← readTerm?_skipBlanks hstyle.afterColon] at hd
    have hfield := readField?_chars hblanks key hd
    apply readItems?_last
    · simpa [fieldListChars, fieldsChars] using hfield
    · rw [skipBlanks_append (hstyle.lineBreak _), skipBlanks_cons rfl]
  | (key, d) :: f :: fields =>
    rw [fieldListChars, fieldsChars_cons] at hm hn ⊢
    simp only [List.length_cons, List.length_append] at hm hn
    have hd := d.readTerm?_chars hstyle depth h.1 (n := m) (by omega)
      (',' :: (style.lineBreak depth ++ (fieldListChars style depth (f :: fields) ++
        (style.lineBreak outer ++ '\x7d' :: rest)))) rfl
    rw [← readTerm?_skipBlanks hstyle.afterColon] at hd
    have hfield := readField?_chars hblanks key hd
    have hothers := readItems?_fieldChars hstyle depth outer (f :: fields) (by simp) h.2
      (m := m + 1) (n := n) (by omega) (by omega) _ (hstyle.lineBreak depth) rest
    simp only [List.append_assoc, List.cons_append] at hothers hfield ⊢
    exact readItems?_next hfield (skipBlanks_cons rfl _) (by decide) hothers

end

/-- A text that ends in blanks is read as the term of its data. -/
theorem Data.parse?_chars {style : Style} (hstyle : style.Blank) (d : Data) (h : d.Readable)
    {blanks : List Char} (hblanks : ∀ c ∈ blanks, isBlank c = true) :
    Term.parse? (d.chars style 0 ++ blanks) = some d.term := by
  have hends : endsNumber (blanks ++ []) = true := endsNumber_blanks hblanks rfl
  have hskip : skipBlanks (blanks ++ []) = [] := skipBlanks_append hblanks []
  rw [List.append_nil] at hends hskip
  have hread := d.readTerm?_chars hstyle 0 h (n := (d.chars style 0 ++ blanks).length) (by simp)
    blanks hends
  rw [Term.parse?, hread]
  simp [hskip]

end BlockTemplate.Json
