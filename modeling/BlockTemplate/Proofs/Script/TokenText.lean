import BlockTemplate.Proofs.Script.Spelling

/-! The texts of tokens, one class for each kind of token. Reading takes the longest text of a token
that there is, and finds one wherever there is any. -/
namespace BlockTemplate.Script

def IsWord : List Char → Prop
  | [] => False
  | c :: cs => isWordStart c = true ∧ ∀ d ∈ cs, isWordChar d = true

def IsDigits (cs : List Char) : Prop := cs ≠ [] ∧ ∀ d ∈ cs, Decimal.isDigit d = true

/-- What can stand between quotes, and what it denotes. -/
inductive QuotedBody : List Char → List Char → Prop
  | empty : QuotedBody [] []
  | plain : c ≠ '"' → c ≠ '\\' → QuotedBody cs s → QuotedBody (c :: cs) (c :: s)
  | escape : c ≠ '\n' → QuotedBody cs s → QuotedBody ('\\' :: c :: cs) (escaped c :: s)

/-- A number without its sign, with the digits before and after its point. -/
inductive Unsigned : List Char → List Char → List Char → Prop
  | whole : IsDigits whole → Unsigned whole whole []
  | decimal : IsDigits whole → IsDigits fraction →
      Unsigned (whole ++ '.' :: fraction) whole fraction

/-- Which text is which token. -/
inductive TokenText : List Char → Token → Prop
  | keyword (k : Keyword) : TokenText k.word.toList (.keyword k)
  | punct (p : Punct) : TokenText [p.char] (.punct p)
  | ident : IsWord cs → (∀ k : Keyword, k.word.toList ≠ cs) →
      TokenText cs (.ident (String.ofList cs))
  | text : QuotedBody cs s → TokenText ('"' :: (cs ++ ['"'])) (.text (String.ofList s))
  | number : Unsigned cs whole fraction →
      TokenText cs (.number (Decimal.toFloat false whole fraction 0))
  | negative : Unsigned cs whole fraction →
      TokenText ('-' :: cs) (.number (Decimal.toFloat true whole fraction 0))

/-- What no word and no number goes on with. -/
def EndsToken (cs : List Char) : Prop := ∀ c ∈ cs.head?, isWordChar c = false ∧ c ≠ '.'

theorem isDigit_of_not_wordChar {c : Char} (h : isWordChar c = false) :
    Decimal.isDigit c = false := by
  rw [isWordChar, Bool.or_eq_false_iff] at h
  exact h.2

section Words
variable {c : Char} {cs : List Char}

theorem isWord_keyword (k : Keyword) : IsWord k.word.toList := by
  cases k <;> exact ⟨rfl, List.all_eq_true.1 rfl⟩

theorem wordToken_keyword (k : Keyword) : wordToken k.word.toList = .keyword k := by
  cases k <;> rfl

theorem wordToken_ident (h : ∀ k : Keyword, k.word.toList ≠ cs) :
    wordToken cs = .ident (String.ofList cs) := by
  have hnone : Keyword.ofWord? (String.ofList cs) = none := by
    refine List.find?_eq_none.2 fun k _ hk => h k ?_
    rw [beq_iff_eq.1 hk, String.toList_ofList]
  rw [wordToken, hnone]

/-- The token of a word is a keyword or an identifier, as the word is spelled. -/
theorem tokenText_word (h : IsWord cs) : TokenText cs (wordToken cs) := by
  by_cases hk : ∃ k : Keyword, k.word.toList = cs
  · obtain ⟨k, rfl⟩ := hk
    rw [wordToken_keyword]
    exact .keyword k
  · have hne : ∀ k : Keyword, k.word.toList ≠ cs := fun k heq => hk ⟨k, heq⟩
    rw [wordToken_ident hne]
    exact .ident h hne

theorem takeWhile_wordChar_le (hcs : ∀ d ∈ cs, isWordChar d = true) (more : List Char) :
    cs.length ≤ ((cs ++ more).takeWhile isWordChar).length := by
  rw [List.takeWhile_append_of_pos hcs, List.length_append]
  omega

end Words

section Numbers
variable {negative : Bool} {cs whole fraction : List Char}

theorem takeWhile_ends {p : Char → Bool} (hcs : ∀ c ∈ cs, p c = true) {more : List Char}
    (hmore : ∀ c ∈ more.head?, p c = false) : (cs ++ more).takeWhile p = cs := by
  rw [List.takeWhile_append_of_pos hcs]
  cases more with
  | nil => simp
  | cons d more => simp [hmore d rfl]

theorem EndsToken.startsWithDigit {more : List Char} (h : EndsToken more) :
    startsWithDigit more = false := by
  cases more with
  | nil => rfl
  | cons c more => exact isDigit_of_not_wordChar (h c rfl).1

theorem EndsToken.fractionDigits {more : List Char} (h : EndsToken more) :
    fractionDigits more = [] := by
  unfold Script.fractionDigits
  split
  · next rest => exact absurd rfl (h '.' rfl).2
  · rfl

theorem Unsigned.startsWithDigit (h : Unsigned cs whole fraction) (more : List Char) :
    startsWithDigit (cs ++ more) = true := by
  have hstarts : ∀ {whole : List Char}, IsDigits whole → ∀ more,
      Script.startsWithDigit (whole ++ more) = true := by
    intro whole hwhole more
    cases whole with
    | nil => exact absurd rfl hwhole.1
    | cons c rest => exact hwhole.2 c List.mem_cons_self
  cases h with
  | whole hwhole => exact hstarts hwhole more
  | decimal hwhole _ =>
    rw [List.append_assoc]
    exact hstarts hwhole _

/-- Digits on both sides of a point are read as one number. -/
theorem readNumber_point (negative : Bool) (hwhole : ∀ d ∈ whole, Decimal.isDigit d = true)
    {after : List Char} (hafter : after.takeWhile Decimal.isDigit ≠ []) :
    readNumber negative (whole ++ '.' :: after) =
      (.number (Decimal.toFloat negative whole (after.takeWhile Decimal.isDigit) 0),
        whole.length + ((after.takeWhile Decimal.isDigit).length + 1)) := by
  have hdigits : fractionDigits ('.' :: after) = after.takeWhile Decimal.isDigit := rfl
  rw [readNumber_append negative hwhole rfl, hdigits, if_neg (by simpa using hafter)]

/-- Whatever follows a number, one at least as long is read. -/
theorem Unsigned.readNumber_le (h : Unsigned cs whole fraction) (negative : Bool)
    (more : List Char) : ∃ t n, readNumber negative (cs ++ more) = (t, n) ∧ cs.length ≤ n := by
  cases h with
  | whole hwhole =>
    refine ⟨_, _, rfl, ?_⟩
    simp only [List.takeWhile_append_of_pos hwhole.2, List.length_append]
    omega
  | decimal hwhole hfraction =>
    have hdigits : (fraction ++ more).takeWhile Decimal.isDigit =
        fraction ++ more.takeWhile Decimal.isDigit := List.takeWhile_append_of_pos hfraction.2
    have hne : (fraction ++ more).takeWhile Decimal.isDigit ≠ [] := by
      rw [hdigits]
      exact List.append_ne_nil_of_left_ne_nil hfraction.1 _
    rw [List.append_assoc, List.cons_append, readNumber_point negative hwhole.2 hne]
    refine ⟨_, _, rfl, ?_⟩
    simp only [hdigits, List.length_append, List.length_cons]
    omega

/-- Before what ends it, a number is read as it is. -/
theorem Unsigned.readNumber_eq (h : Unsigned cs whole fraction) (negative : Bool)
    {more : List Char} (hmore : EndsToken more) : readNumber negative (cs ++ more) =
      (.number (Decimal.toFloat negative whole fraction 0), cs.length) := by
  cases h with
  | whole hwhole =>
    rw [readNumber_append negative hwhole.2 hmore.startsWithDigit, hmore.fractionDigits]
    rfl
  | decimal hwhole hfraction =>
    have hdigits : (fraction ++ more).takeWhile Decimal.isDigit = fraction :=
      takeWhile_ends hfraction.2 fun c hc => isDigit_of_not_wordChar (hmore c hc).1
    have hne : (fraction ++ more).takeWhile Decimal.isDigit ≠ [] := by
      rw [hdigits]
      exact hfraction.1
    rw [List.append_assoc, List.cons_append, readNumber_point negative hwhole.2 hne, hdigits,
      List.length_append, List.length_cons]

/-- What is read as a number is one. -/
theorem unsigned_of_readNumber {t : Token} {n : Nat} (h : readNumber negative cs = (t, n))
    (hcs : startsWithDigit cs = true) : ∃ whole fraction, Unsigned (cs.take n) whole fraction ∧
      t = .number (Decimal.toFloat negative whole fraction 0) := by
  have htake : cs.takeWhile Decimal.isDigit ++ cs.dropWhile Decimal.isDigit = cs :=
    List.takeWhile_append_dropWhile
  have hwhole : IsDigits (cs.takeWhile Decimal.isDigit) := by
    refine ⟨?_, List.all_eq_true.1 List.all_takeWhile⟩
    cases cs with
    | nil => cases hcs
    | cons c rest =>
      have hc : Decimal.isDigit c = true := hcs
      simp [hc]
  generalize cs.takeWhile Decimal.isDigit = whole at htake hwhole
  have hafter := startsWithDigit_dropWhile cs
  generalize cs.dropWhile Decimal.isDigit = after at htake hafter
  subst htake
  rw [readNumber_append negative hwhole.2 hafter] at h
  cases h
  by_cases hempty : (fractionDigits after).isEmpty = true
  · rw [if_pos hempty, Nat.add_zero, List.take_left, List.isEmpty_iff.1 hempty]
    exact ⟨whole, [], .whole hwhole, rfl⟩
  · obtain ⟨rest, rfl⟩ : ∃ rest, after = '.' :: rest := by
      unfold fractionDigits at hempty
      split at hempty
      · next rest => exact ⟨rest, rfl⟩
      · exact absurd rfl hempty
    have hfront := List.takeWhile_prefix (p := Decimal.isDigit) (l := rest)
    rw [if_neg hempty, List.take_length_add_append, List.take_succ_cons]
    refine ⟨whole, fractionDigits ('.' :: rest), ?_, rfl⟩
    have hrest : rest.take (fractionDigits ('.' :: rest)).length = fractionDigits ('.' :: rest) :=
      (List.prefix_iff_eq_take.1 hfront).symm
    rw [hrest]
    refine .decimal hwhole ⟨?_, List.all_eq_true.1 List.all_takeWhile⟩
    simpa using hempty

end Numbers

section Texts
variable {cs s : List Char}

/-- A quoted body reaches to the quote after it, whatever comes then. -/
theorem QuotedBody.quotedText? (h : QuotedBody cs s) (more : List Char) :
    quotedText? (cs ++ '"' :: more) = some (s, cs.length + 1) := by
  induction h with
  | empty => rfl
  | plain hquote hc _ ih =>
    rw [List.cons_append, quotedText?_cons hc hquote, ih]
    rfl
  | escape hc _ ih => simp [Script.quotedText?, hc, ih]

theorem quotedBody_of_quotedText? {n : Nat} (h : quotedText? cs = some (s, n)) :
    ∃ body, cs.take n = body ++ ['"'] ∧ QuotedBody body s := by
  fun_induction Script.quotedText? cs generalizing s n with
  | case1 | case2 | case3 rest => cases h
  | case4 c rest hc ih =>
    obtain ⟨⟨s', n'⟩, hrest, heq⟩ := Option.map_eq_some_iff.1 h
    cases heq
    obtain ⟨body, hbody, hquoted⟩ := ih hrest
    exact ⟨'\\' :: c :: body, by simp [hbody], .escape hc hquoted⟩
  | case5 rest =>
    cases h
    exact ⟨[], rfl, .empty⟩
  | case6 c rest hend hescape hquote ih =>
    obtain ⟨⟨s', n'⟩, hrest, heq⟩ := Option.map_eq_some_iff.1 h
    cases heq
    obtain ⟨body, hbody, hquoted⟩ := ih hrest
    have hc : c ≠ '\\' := by
      rintro rfl
      cases rest with
      | nil => exact hend rfl rfl
      | cons d rest => exact hescape d rest rfl rfl
    exact ⟨c :: body, by simp [hbody], .plain hquote hc hquoted⟩

end Texts

section Pieces
variable {c : Char} {cs rest : List Char} {t : Token} {n : Nat}

/-- What is read as a token is its text. -/
theorem tokenText_of_readPiece (h : readPiece c rest = (.token t, n)) :
    TokenText (c :: rest.take n) t := by
  obtain ⟨hc, rfl, rfl⟩ | ⟨hc, hnumber⟩ | ⟨rfl, hstarts, hnumber⟩ | ⟨rfl, s, hread, rfl⟩ |
    ⟨p, rfl, rfl, rfl⟩ := readPiece_token h
  · rw [← List.prefix_iff_eq_take.1 (List.takeWhile_prefix isWordChar)]
    exact tokenText_word ⟨hc, List.all_eq_true.1 List.all_takeWhile⟩
  · obtain ⟨whole, fraction, hunsigned, rfl⟩ := unsigned_of_readNumber hnumber hc
    exact .number hunsigned
  · obtain ⟨whole, fraction, hunsigned, rfl⟩ := unsigned_of_readNumber hnumber hstarts
    exact .negative hunsigned
  · obtain ⟨body, hbody, hquoted⟩ := quotedBody_of_quotedText? hread
    rw [hbody]
    exact .text hquoted
  · exact .punct p

/-- How a text of a token begins, and what it is made of. -/
theorem TokenText.cases_head (h : TokenText (c :: cs) t) :
    (isWordStart c = true ∧ (∀ d ∈ cs, isWordChar d = true) ∧ t = wordToken (c :: cs)) ∨
    (Decimal.isDigit c = true ∧ ∃ whole fraction, Unsigned (c :: cs) whole fraction ∧
      t = .number (Decimal.toFloat false whole fraction 0)) ∨
    (c = '-' ∧ ∃ whole fraction, Unsigned cs whole fraction ∧
      t = .number (Decimal.toFloat true whole fraction 0)) ∨
    (c = '"' ∧ ∃ body s, cs = body ++ ['"'] ∧ QuotedBody body s ∧ t = .text (String.ofList s)) ∨
    ∃ p : Punct, c = p.char ∧ cs = [] ∧ t = .punct p := by
  generalize htext : c :: cs = text at h
  cases h with
  | keyword k =>
    have hword := isWord_keyword k
    rw [← htext] at hword
    exact .inl ⟨hword.1, hword.2, (wordToken_keyword k).symm⟩
  | ident hword hk =>
    rw [← htext] at hword
    exact .inl ⟨hword.1, hword.2, (wordToken_ident hk).symm⟩
  | number hunsigned =>
    have hstarts := hunsigned.startsWithDigit []
    rw [List.append_nil, ← htext] at hstarts
    exact .inr (.inl ⟨hstarts, _, _, hunsigned, rfl⟩)
  | negative hunsigned =>
    cases htext
    exact .inr (.inr (.inl ⟨rfl, _, _, hunsigned, rfl⟩))
  | text hquoted =>
    cases htext
    exact .inr (.inr (.inr (.inl ⟨rfl, _, _, rfl, hquoted, rfl⟩)))
  | punct p =>
    cases htext
    exact .inr (.inr (.inr (.inr ⟨p, rfl, rfl, rfl⟩)))

/-- Whatever follows the text of a token, a token at least as long is read. -/
theorem TokenText.readPiece_le (h : TokenText (c :: cs) t) (more : List Char) :
    ∃ u n, readPiece c (cs ++ more) = (.token u, n) ∧ cs.length ≤ n := by
  obtain ⟨hc, hcs, _⟩ | ⟨hc, whole, fraction, hunsigned, _⟩ | ⟨rfl, whole, fraction, hunsigned, _⟩ |
    ⟨rfl, body, s, rfl, hquoted, _⟩ | ⟨p, rfl, rfl, _⟩ := h.cases_head
  · exact ⟨_, _, readPiece_word hc _, takeWhile_wordChar_le hcs more⟩
  · obtain ⟨u, n, hnumber, hle⟩ := hunsigned.readNumber_le false more
    rw [List.length_cons] at hle
    obtain ⟨n, rfl⟩ : ∃ m, n = m + 1 := ⟨n - 1, by omega⟩
    exact ⟨u, n, readPiece_digit hc hnumber, by omega⟩
  · obtain ⟨u, n, hnumber, hle⟩ := hunsigned.readNumber_le true more
    exact ⟨u, n, readPiece_minus (hunsigned.startsWithDigit more) hnumber, hle⟩
  · have hread := hquoted.quotedText? more
    rw [List.append_assoc]
    exact ⟨_, _, readPiece_quote hread, by simp⟩
  · exact ⟨_, _, readPiece_punct p _, Nat.le_refl _⟩

/-- Before what ends it, a token is read from its text. -/
theorem TokenText.readPiece_eq (h : TokenText (c :: cs) t) {more : List Char}
    (hmore : EndsToken more) : readPiece c (cs ++ more) = (.token t, cs.length) := by
  obtain ⟨hc, hcs, rfl⟩ | ⟨hc, whole, fraction, hunsigned, rfl⟩ |
    ⟨rfl, whole, fraction, hunsigned, rfl⟩ | ⟨rfl, body, s, rfl, hquoted, rfl⟩ |
    ⟨p, rfl, rfl, rfl⟩ := h.cases_head
  · rw [readPiece_word hc, takeWhile_ends hcs fun d hd => (hmore d hd).1]
  · exact readPiece_digit hc (hunsigned.readNumber_eq false hmore)
  · exact readPiece_minus (hunsigned.startsWithDigit more) (hunsigned.readNumber_eq true hmore)
  · have hread := hquoted.quotedText? more
    rw [List.append_assoc, List.length_append]
    exact readPiece_quote hread
  · exact readPiece_punct p _

theorem TokenText.ne_nil {text : List Char} (h : TokenText text t) : text ≠ [] := by
  cases h with
  | keyword k => cases k <;> decide
  | ident hword _ =>
    rintro rfl
    exact hword
  | number hunsigned =>
    rintro rfl
    cases hunsigned.startsWithDigit []
  | punct | text | negative => simp

/-- No text of a token that starts where one is read is longer. -/
theorem longest_of_readPiece (h : readPiece c rest = (.token t, n)) {longer : List Char} {u : Token}
    (hfront : longer <+: c :: rest) (hlonger : TokenText longer u) : longer.length ≤ n + 1 := by
  obtain ⟨more, hmore⟩ := hfront
  obtain ⟨d, ds, rfl⟩ := List.exists_cons_of_ne_nil hlonger.ne_nil
  obtain ⟨rfl, rfl⟩ := List.cons.inj hmore
  obtain ⟨v, m, hread, hle⟩ := hlonger.readPiece_le more
  cases h.symm.trans hread
  simpa using hle

/-- Where nothing can be read there is no token. -/
theorem no_token_of_readPiece (h : readPiece c rest = (.unreadable, n)) {text : List Char} {u : Token}
    (hfront : text <+: c :: rest) : ¬ TokenText text u := by
  intro htext
  obtain ⟨more, hmore⟩ := hfront
  obtain ⟨d, ds, rfl⟩ := List.exists_cons_of_ne_nil htext.ne_nil
  obtain ⟨rfl, rfl⟩ := List.cons.inj hmore
  obtain ⟨v, m, hread, _⟩ := htext.readPiece_le more
  cases h.symm.trans hread

end Pieces

end BlockTemplate.Script
