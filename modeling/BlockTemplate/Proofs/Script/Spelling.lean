import BlockTemplate.Proofs.Script.Lexing

/-! Every list of tokens that can be written one by one is the tokens of some source: write them
with blanks between them. -/
namespace BlockTemplate.Script

/-- Before a blank, the text is read as the token. -/
def Spells (c : Char) (cs : List Char) (t : Token) : Prop :=
  ∀ more, readPiece c (cs ++ ' ' :: more) = (.token t, cs.length)

def Token.Spellable (t : Token) : Prop := ∃ c cs, Spells c cs t

theorem takeWhile_append_blank {p : Char → Bool} (hp : p ' ' = false) {cs : List Char}
    (hcs : ∀ c ∈ cs, p c = true) (more : List Char) :
    (cs ++ ' ' :: more).takeWhile p = cs := by
  rw [List.takeWhile_append_of_pos hcs]
  simp [hp]

/-- A text taken from the front of another reaches as far again before a blank. -/
theorem takeWhile_take {p : Char → Bool} (hp : p ' ' = false) (cs more : List Char) :
    (cs.take (cs.takeWhile p).length ++ ' ' :: more).takeWhile p = cs.takeWhile p := by
  rw [← List.prefix_iff_eq_take.1 (List.takeWhile_prefix p)]
  exact takeWhile_append_blank hp (List.all_eq_true.1 List.all_takeWhile) more

/-- The digits after a point, if the text begins with one. -/
def fractionDigits : List Char → List Char
  | '.' :: rest => rest.takeWhile Decimal.isDigit
  | _ => []

theorem readNumber_append (negative : Bool) {whole after : List Char}
    (hwhole : ∀ c ∈ whole, Decimal.isDigit c = true) (hafter : startsWithDigit after = false) :
    readNumber negative (whole ++ after) =
      (.number (Decimal.toFloat negative whole (fractionDigits after) 0),
        whole.length + if (fractionDigits after).isEmpty then 0
          else (fractionDigits after).length + 1) := by
  have hnone : after.takeWhile Decimal.isDigit = [] ∧ after.dropWhile Decimal.isDigit = after := by
    cases after with
    | nil => exact ⟨rfl, rfl⟩
    | cons c after =>
      have hc : Decimal.isDigit c = false := hafter
      simp [hc]
  rw [readNumber, List.takeWhile_append_of_pos hwhole, List.dropWhile_append_of_pos hwhole,
    hnone.1, hnone.2, List.append_nil]
  rfl

theorem startsWithDigit_dropWhile (cs : List Char) :
    startsWithDigit (cs.dropWhile Decimal.isDigit) = false := by
  cases h : cs.dropWhile Decimal.isDigit with
  | nil => rfl
  | cons c rest =>
    have hc := List.head?_dropWhile_not Decimal.isDigit cs
    simpa [h, startsWithDigit] using hc

theorem readNumber_take {negative : Bool} {cs : List Char} {t : Token} {n : Nat}
    (h : readNumber negative cs = (t, n)) :
    n ≤ cs.length ∧ ∀ more, readNumber negative (cs.take n ++ ' ' :: more) = (t, n) := by
  have hwhole : ∀ c ∈ cs.takeWhile Decimal.isDigit, Decimal.isDigit c = true :=
    List.all_eq_true.1 List.all_takeWhile
  have hafter := startsWithDigit_dropWhile cs
  obtain ⟨whole, after, rfl, hw, ha⟩ : ∃ whole after, cs = whole ++ after ∧
      (∀ c ∈ whole, Decimal.isDigit c = true) ∧ startsWithDigit after = false :=
    ⟨_, _, List.takeWhile_append_dropWhile.symm, hwhole, hafter⟩
  rw [readNumber_append negative hw ha] at h
  cases h
  by_cases hempty : (fractionDigits after).isEmpty = true
  · rw [if_pos hempty, Nat.add_zero, List.take_left]
    refine ⟨by simp, fun more => ?_⟩
    rw [readNumber_append negative hw rfl, List.isEmpty_iff.1 hempty]
    rfl
  · obtain ⟨rest, rfl⟩ : ∃ rest, after = '.' :: rest := by
      unfold fractionDigits at hempty
      split at hempty
      · next rest => exact ⟨rest, rfl⟩
      · exact absurd rfl hempty
    have hprefix := List.takeWhile_prefix (p := Decimal.isDigit) (l := rest)
    have htake : (whole ++ '.' :: rest).take
        (whole.length + ((fractionDigits ('.' :: rest)).length + 1)) =
          whole ++ '.' :: fractionDigits ('.' :: rest) := by
      rw [List.take_length_add_append, List.take_succ_cons]
      exact congrArg (whole ++ '.' :: ·) (List.prefix_iff_eq_take.1 hprefix).symm
    have hdigits : ∀ more, fractionDigits ('.' :: (fractionDigits ('.' :: rest) ++ ' ' :: more)) =
        fractionDigits ('.' :: rest) :=
      takeWhile_append_blank (by decide) (List.all_eq_true.1 List.all_takeWhile)
    rw [if_neg hempty, htake]
    refine ⟨?_, fun more => ?_⟩
    · have hlength := hprefix.length_le
      simp only [fractionDigits, List.length_append, List.length_cons]
      omega
    · rw [List.append_assoc, List.cons_append, readNumber_append negative hw rfl, hdigits,
        if_neg hempty]

theorem quotedText?_cons {c : Char} (hc : c ≠ '\\') (hquote : c ≠ '"') (rest : List Char) :
    quotedText? (c :: rest) = (quotedText? rest).map fun (s, n) => (c :: s, n + 1) := by
  rw [quotedText?, if_neg hquote]
  · exact fun h _ => hc h
  · exact fun _ _ h _ => hc h

/-- A quoted text ends at its quote, whatever comes after. -/
theorem quotedText?_take {cs s : List Char} {n : Nat} (h : quotedText? cs = some (s, n)) :
    n ≤ cs.length ∧ ∀ more, quotedText? (cs.take n ++ more) = some (s, n) := by
  fun_induction quotedText? cs generalizing s n with
  | case1 | case2 | case3 rest => cases h
  | case4 c rest hc ih =>
    obtain ⟨⟨s', n'⟩, hrest, heq⟩ := Option.map_eq_some_iff.1 h
    cases heq
    obtain ⟨hle, htake⟩ := ih hrest
    refine ⟨by simpa using hle, fun more => ?_⟩
    simp [quotedText?, hc, htake more]
  | case5 rest =>
    cases h
    exact ⟨by simp, fun more => rfl⟩
  | case6 c rest hend hescape hquote ih =>
    obtain ⟨⟨s', n'⟩, hrest, heq⟩ := Option.map_eq_some_iff.1 h
    cases heq
    obtain ⟨hle, htake⟩ := ih hrest
    have hc : c ≠ '\\' := by
      rintro rfl
      cases rest with
      | nil => exact hend rfl rfl
      | cons d rest => exact hescape d rest rfl rfl
    refine ⟨by simpa using hle, fun more => ?_⟩
    rw [List.take_succ_cons, List.cons_append, quotedText?_cons hc hquote, htake more]
    rfl

theorem readNumber_pos {negative : Bool} {cs : List Char} {t : Token} {n : Nat}
    (h : readNumber negative cs = (t, n)) (hcs : startsWithDigit cs = true) : 0 < n := by
  cases cs with
  | nil => cases hcs
  | cons c rest =>
    have hc : Decimal.isDigit c = true := hcs
    cases h
    simp only [List.takeWhile_cons, hc, if_true, List.length_cons]
    omega

theorem startsWithDigit_take {cs : List Char} (h : startsWithDigit cs = true) {n : Nat}
    (hn : 0 < n) (more : List Char) : startsWithDigit (cs.take n ++ more) = true := by
  cases cs with
  | nil => cases h
  | cons c rest =>
    obtain ⟨n, rfl⟩ : ∃ m, n = m + 1 := ⟨n - 1, by omega⟩
    exact h

section Pieces
variable {c : Char} {rest : List Char} {t : Token} {n : Nat}

/-- A blank or a slash begins no word and no number. -/
theorem not_blank (hc : isWordStart c = true ∨ Decimal.isDigit c = true) :
    isSpace c = false ∧ c ≠ '/' := by
  constructor
  · refine Bool.eq_false_iff.2 fun hspace => ?_
    simp only [isSpace, Bool.or_eq_true, decide_eq_true_eq] at hspace
    obtain ((rfl | rfl) | rfl) | rfl := hspace <;> exact absurd hc (by decide)
  · rintro rfl
    exact absurd hc (by decide)

theorem not_wordStart (hc : Decimal.isDigit c = true) : isWordStart c = false := by
  simp only [Decimal.isDigit, Bool.and_eq_true, decide_eq_true_eq] at hc
  refine Bool.eq_false_iff.2 fun hword => ?_
  simp only [isWordStart, Bool.or_eq_true, Bool.and_eq_true, decide_eq_true_eq] at hword
  obtain (⟨hlow, _⟩ | ⟨hlow, _⟩) | rfl := hword
  · exact absurd (Char.le_trans hlow hc.2) (by decide)
  · exact absurd (Char.le_trans hlow hc.2) (by decide)
  · exact absurd hc.2 (by decide)

theorem readPiece_word (hc : isWordStart c = true) (rest : List Char) :
    readPiece c rest = (.token (wordToken (c :: rest.takeWhile isWordChar)),
      (rest.takeWhile isWordChar).length) := by
  obtain ⟨hspace, hslash⟩ := not_blank (.inl hc)
  simp [readPiece, hspace, hslash, hc]

theorem readPiece_digit (hc : Decimal.isDigit c = true)
    (h : readNumber false (c :: rest) = (t, n + 1)) : readPiece c rest = (.token t, n) := by
  obtain ⟨hspace, hslash⟩ := not_blank (.inr hc)
  simp [readPiece, hspace, hslash, not_wordStart hc, hc, h]

theorem readPiece_minus (hrest : startsWithDigit rest = true)
    (h : readNumber true rest = (t, n)) : readPiece '-' rest = (.token t, n) := by
  have hminus : isSpace '-' = false ∧ isWordStart '-' = false ∧ Decimal.isDigit '-' = false := by
    decide
  simp [readPiece, hminus, hrest, h]

theorem readPiece_quote {s : List Char} (h : quotedText? rest = some (s, n)) :
    readPiece '"' rest = (.token (.text (String.ofList s)), n) := by
  have hquote : isSpace '"' = false ∧ isWordStart '"' = false ∧ Decimal.isDigit '"' = false := by
    decide
  simp [readPiece, hquote, h]

theorem readPiece_punct (p : Punct) (rest : List Char) :
    readPiece p.char rest = (.token (.punct p), 0) := by
  cases p <;> rfl

/-- What a token can be. -/
theorem readPiece_token (h : readPiece c rest = (.token t, n)) :
    (isWordStart c = true ∧ t = wordToken (c :: rest.takeWhile isWordChar) ∧
      n = (rest.takeWhile isWordChar).length) ∨
    (Decimal.isDigit c = true ∧ readNumber false (c :: rest) = (t, n + 1)) ∨
    (c = '-' ∧ startsWithDigit rest = true ∧ readNumber true rest = (t, n)) ∨
    (c = '"' ∧ ∃ s, quotedText? rest = some (s, n) ∧ t = .text (String.ofList s)) ∨
    ∃ p : Punct, c = p.char ∧ t = .punct p ∧ n = 0 := by
  unfold readPiece at h
  split at h
  · cases h
  split at h
  · cases h
  split at h
  · next hword =>
    cases h
    exact .inl ⟨hword, rfl, rfl⟩
  split at h
  · next hdigit =>
    cases hnumber : readNumber false (c :: rest) with
    | mk number k =>
      have hpos := readNumber_pos hnumber hdigit
      simp only [hnumber] at h
      cases h
      exact .inr (.inl ⟨hdigit, by rw [Nat.sub_add_cancel hpos]⟩)
  split at h
  · next hminus =>
    obtain ⟨hc, hstarts⟩ := (Bool.and_eq_true _ _).mp hminus
    cases h
    exact .inr (.inr (.inl ⟨of_decide_eq_true hc, hstarts, rfl⟩))
  split at h
  · next hquote =>
    split at h
    · next s k hread =>
      cases h
      exact .inr (.inr (.inr (.inl ⟨hquote, s, hread, rfl⟩)))
    · cases h
  split at h
  · next p hpunct =>
    cases h
    have hchar : p.char = c := by simpa using List.find?_some hpunct
    exact .inr (.inr (.inr (.inr ⟨p, hchar.symm, rfl, rfl⟩)))
  · cases h

/-- A token is read again from its own text. -/
theorem readPiece_spells (h : readPiece c rest = (.token t, n)) : Spells c (rest.take n) t := by
  intro more
  obtain ⟨hc, rfl, rfl⟩ | ⟨hc, hnumber⟩ | ⟨rfl, hstarts, hnumber⟩ | ⟨rfl, s, hread, rfl⟩ |
    ⟨p, rfl, rfl, rfl⟩ := readPiece_token h
  · have hle := (List.takeWhile_prefix (p := isWordChar) (l := rest)).length_le
    rw [readPiece_word hc, takeWhile_take (by decide), List.length_take, Nat.min_eq_left hle]
  · obtain ⟨hle, htake⟩ := readNumber_take hnumber
    have hagain : readNumber false (c :: (rest.take n ++ ' ' :: more)) = (t, n + 1) := htake more
    rw [readPiece_digit hc hagain, List.length_take, Nat.min_eq_left (Nat.le_of_succ_le_succ hle)]
  · obtain ⟨hle, htake⟩ := readNumber_take hnumber
    have hagain := startsWithDigit_take hstarts (readNumber_pos hnumber hstarts) (' ' :: more)
    rw [readPiece_minus hagain (htake more), List.length_take, Nat.min_eq_left hle]
  · obtain ⟨hle, htake⟩ := quotedText?_take hread
    rw [readPiece_quote (htake _), List.length_take, Nat.min_eq_left hle]
  · exact readPiece_punct p _

theorem spellable_of_readPiece (h : readPiece c rest = (.token t, n)) : t.Spellable :=
  ⟨c, rest.take n, readPiece_spells h⟩

end Pieces

/-- The token is the first lexeme, and the blank after it is passed over. -/
theorem Spells.lexChars_eq {c : Char} {cs : List Char} {t : Token} (h : Spells c cs t)
    (start : Nat) (more : List Char) :
    ∃ stop later, lexChars start (c :: (cs ++ ' ' :: more)) =
      ⟨.token t, ⟨start, stop⟩⟩ :: lexChars later more := by
  have hblank : ∀ stop, lexChars stop (' ' :: more) = lexChars (stop + 1) more := by
    intro stop
    rw [lexChars]
    rfl
  rw [lexChars, h more]
  simp only [List.drop_left, hblank]
  exact ⟨_, _, rfl⟩

/-- A source with these tokens. -/
theorem exists_lexed {ts : List Token} (h : ∀ t ∈ ts, t.Spellable) :
    ∃ cs, ∀ start, unreadableOf (lexChars start cs) = [] ∧
      (tokensOf (lexChars start cs)).map (·.item) = ts := by
  induction ts with
  | nil =>
    refine ⟨[], fun start => ?_⟩
    rw [lexChars]
    exact ⟨rfl, rfl⟩
  | cons t ts ih =>
    obtain ⟨⟨c, cs, hspells⟩, hts⟩ := List.forall_mem_cons.1 h
    obtain ⟨more, hmore⟩ := ih hts
    refine ⟨c :: (cs ++ ' ' :: more), fun start => ?_⟩
    obtain ⟨stop, later, hlex⟩ := hspells.lexChars_eq start more
    obtain ⟨hunreadable, htokens⟩ := hmore later
    rw [hlex]
    exact ⟨hunreadable, congrArg (t :: ·) htokens⟩

theorem exists_source {ts : List Token} (h : ∀ t ∈ ts, t.Spellable) :
    ∃ source, unreadableOf (lex source) = [] ∧ (tokensOf (lex source)).map (·.item) = ts := by
  obtain ⟨cs, hcs⟩ := exists_lexed h
  refine ⟨String.ofList cs, ?_⟩
  rw [lex, String.toList_ofList]
  exact hcs 0

/-- The tokens of a source can be written, as they stand in it. -/
theorem spellable_of_lexed (start : Nat) (cs : List Char) :
    ∀ t ∈ tokensOf (lexChars start cs), t.item.Spellable := by
  match cs with
  | [] =>
    rw [lexChars]
    simp [tokensOf]
  | c :: rest =>
    rw [lexChars]
    cases hpiece : readPiece c rest with
    | mk piece n =>
      have hothers := spellable_of_lexed (start + byteLength (c :: rest.take n)) (rest.drop n)
      cases piece with
      | blank => exact hothers
      | token t => exact List.forall_mem_cons.2 ⟨spellable_of_readPiece hpiece, hothers⟩
      | unreadable => exact hothers
termination_by cs.length
decreasing_by simp only [List.length_cons, List.length_drop]; omega

@[simp] theorem spellable_punct (p : Punct) : (Token.punct p).Spellable :=
  spellable_of_readPiece (readPiece_punct p [])

@[simp] theorem spellable_keyword (k : Keyword) : (Token.keyword k).Spellable := by
  have h : readPiece (k.word.toList.headD ' ') k.word.toList.tail =
      (.token (.keyword k), k.word.toList.tail.length) := by cases k <;> rfl
  exact spellable_of_readPiece h

@[simp] theorem spellable_emptyText : (Token.text "").Spellable := by
  have h : quotedText? ['"'] = some ([], 1) := rfl
  exact spellable_of_readPiece (readPiece_quote h)

/-- One word for each place where only a few are known. -/
@[simp] theorem spellable_player : (Token.ident "player").Spellable := by
  have h : readPiece 'p' "layer".toList = (.token (.ident "player"), 5) := rfl
  exact spellable_of_readPiece h

@[simp] theorem spellable_local : (Token.ident "local").Spellable := by
  have h : readPiece 'l' "ocal".toList = (.token (.ident "local"), 4) := rfl
  exact spellable_of_readPiece h

@[simp] theorem spellable_text : (Token.ident "text").Spellable := by
  have h : readPiece 't' "ext".toList = (.token (.ident "text"), 3) := rfl
  exact spellable_of_readPiece h

end BlockTemplate.Script
