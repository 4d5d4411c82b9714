import BlockTemplate.Proofs.Script.Recognition
import BlockTemplate.Proofs.Script.Tiling

/-! Writing tokens, with blanks and comments between them. What is written is read again, token by
token, where it was written. -/
namespace BlockTemplate.Script

/-- A number in digits, maybe with a sign and maybe with digits after a point. -/
structure Literal where
  negative : Bool
  whole : List Char
  fraction : Option (List Char)
  whole_digits : IsDigits whole
  fraction_digits : ∀ digits ∈ fraction, IsDigits digits

namespace Literal

def unsigned (l : Literal) : List Char :=
  match l.fraction with
  | none => l.whole
  | some digits => l.whole ++ '.' :: digits

def chars (l : Literal) : List Char := if l.negative then '-' :: l.unsigned else l.unsigned

def token (l : Literal) : Token :=
  .number (Decimal.toFloat l.negative l.whole (l.fraction.getD []) 0)

end Literal

/-- A text with a backslash before each quote and each backslash in it. -/
def withBackslashes : List Char → List Char
  | [] => []
  | c :: cs =>
    if c = '"' ∨ c = '\\' then '\\' :: c :: withBackslashes cs else c :: withBackslashes cs

/-- A token that can be written. -/
inductive Written where
  | keyword (k : Keyword)
  | punct (p : Punct)
  | ident (name : List Char) (word : IsWord name) (free : ∀ k : Keyword, k.word.toList ≠ name)
  | text (s : String)
  | number (l : Literal)

namespace Written

def chars : Written → List Char
  | .keyword k => k.word.toList
  | .punct p => [p.char]
  | .ident name _ _ => name
  | .text s => '"' :: (withBackslashes s.toList ++ ['"'])
  | .number l => l.chars

def token : Written → Token
  | .keyword k => .keyword k
  | .punct p => .punct p
  | .ident name _ _ => .ident (String.ofList name)
  | .text s => .text s
  | .number l => l.token

end Written

/-- A blank, or a comment with the line feed that ends it. -/
inductive Filler where
  | blank (c : Char) (space : isSpace c = true)
  | comment (body : List Char) (line : '\n' ∉ body)

def Filler.chars : Filler → List Char
  | .blank c _ => [c]
  | .comment body _ => '/' :: '/' :: (body ++ ['\n'])

/-- What is put between two tokens, never nothing. -/
structure Separator where
  first : Filler
  others : List Filler

def Separator.chars (s : Separator) : List Char := s.first.chars ++ s.others.flatMap Filler.chars

/-- Tokens as they are written, with a separator after each but the last. -/
def writeFrom (separator : Nat → Separator) : Nat → List Written → List Char
  | _, [] => []
  | _, [w] => w.chars
  | i, w :: rest => w.chars ++ ((separator i).chars ++ writeFrom separator (i + 1) rest)

def write (separator : Nat → Separator) (ws : List Written) : String :=
  String.ofList (writeFrom separator 0 ws)

/-- The same tokens, each with the bytes that it is written at. -/
def placedFrom (separator : Nat → Separator) : Nat → Nat → List Written → List (Located Lexeme)
  | _, _, [] => []
  | i, start, w :: rest =>
    let stop := start + byteLength w.chars
    let next := stop + byteLength (separator i).chars
    ⟨.token w.token, ⟨start, stop⟩⟩ :: placedFrom separator (i + 1) next rest

theorem Literal.unsigned_chars (l : Literal) :
    Unsigned l.unsigned l.whole (l.fraction.getD []) := by
  obtain ⟨negative, whole, fraction, hwhole, hfraction⟩ := l
  cases fraction with
  | none => exact .whole hwhole
  | some digits => exact .decimal hwhole (hfraction digits rfl)

theorem Literal.tokenText (l : Literal) : TokenText l.chars l.token := by
  have hunsigned := l.unsigned_chars
  unfold chars token
  cases l.negative with
  | true => exact .negative hunsigned
  | false => exact .number hunsigned

/-- Between quotes the backslashes disappear again. -/
theorem quotedBody_withBackslashes (s : List Char) : QuotedBody (withBackslashes s) s := by
  induction s with
  | nil => exact .empty
  | cons c cs ih =>
    rw [withBackslashes]
    split
    · next hc =>
      -- A quote and a backslash stand for themselves after a backslash; the letters for a line
      -- feed and a tab, which do not, never get one.
      have hline : c ≠ '\n' := by rintro rfl; simp at hc
      have hself : escaped c = c := by obtain rfl | rfl := hc <;> rfl
      have hbody := QuotedBody.escape hline ih
      rwa [hself] at hbody
    · next hc =>
      rw [not_or] at hc
      exact .plain hc.1 hc.2 ih

theorem Written.tokenText (w : Written) : TokenText w.chars w.token := by
  cases w with
  | keyword k => exact .keyword k
  | punct p => exact .punct p
  | ident name word free => exact .ident word free
  | text s =>
    have htext := TokenText.text (quotedBody_withBackslashes s.toList)
    rwa [String.ofList_toList] at htext
  | number l => exact l.tokenText

/-- A token is read up to what ends it. -/
theorem TokenText.lexChars_eq {text more : List Char} {t : Token} (h : TokenText text t)
    (hmore : EndsToken more) (start : Nat) : lexChars start (text ++ more) =
      ⟨.token t, ⟨start, start + byteLength text⟩⟩ ::
        lexChars (start + byteLength text) more := by
  obtain ⟨c, cs, rfl⟩ := List.exists_cons_of_ne_nil h.ne_nil
  rw [List.cons_append, lexChars, h.readPiece_eq hmore]
  simp only [List.take_left, List.drop_left]

theorem endsToken_blank {c : Char} (h : isSpace c = true) (more : List Char) :
    EndsToken (c :: more) := by
  rintro d ⟨⟩
  simp only [isSpace, Bool.or_eq_true, decide_eq_true_eq] at h
  obtain ((rfl | rfl) | rfl) | rfl := h <;> decide

theorem lexChars_blank {c : Char} (h : isSpace c = true) (start : Nat) (more : List Char) :
    lexChars start (c :: more) = lexChars (start + byteLength [c]) more := by
  have hpiece : readPiece c more = (.blank, 0) := by rw [readPiece, if_pos h]
  rw [lexChars, hpiece]
  rfl

/-- A comment goes up to the line feed, which is a blank of its own. -/
theorem readPiece_comment {body : List Char} (h : '\n' ∉ body) (more : List Char) :
    readPiece '/' ('/' :: (body ++ '\n' :: more)) = (.blank, body.length + 1) := by
  have hbody : (body ++ '\n' :: more).takeWhile (fun c => decide (c ≠ '\n')) = body := by
    refine takeWhile_ends (fun c hc => ?_) (by simp)
    rw [decide_eq_true_eq]
    rintro rfl
    exact h hc
  have hline : ('/' :: (body ++ '\n' :: more)).takeWhile (fun c => decide (c ≠ '\n')) =
      '/' :: body := by
    rw [List.takeWhile_cons_of_pos (by decide), hbody]
  rw [readPiece, if_neg (by decide), if_pos (by simp), hline, List.length_cons]

namespace Filler

theorem endsToken (f : Filler) (more : List Char) : EndsToken (f.chars ++ more) := by
  cases f with
  | blank c space => exact endsToken_blank space more
  | comment body line =>
    rintro d ⟨⟩
    decide

theorem lexChars_eq (f : Filler) (start : Nat) (more : List Char) :
    lexChars start (f.chars ++ more) = lexChars (start + byteLength f.chars) more := by
  cases f with
  | blank c space => exact lexChars_blank space start more
  | comment body line =>
    have hpiece := readPiece_comment line more
    have htext : ('/' :: '/' :: body) ++ ['\n'] = (Filler.comment body line).chars := rfl
    rw [chars, List.cons_append, List.cons_append, List.append_assoc, List.singleton_append,
      lexChars, hpiece]
    simp only [List.take_succ_cons, List.take_left, List.drop_succ_cons, List.drop_left]
    rw [lexChars_blank (by decide), Nat.add_assoc, ← byteLength_append, htext, chars]

theorem lexChars_flatMap (fs : List Filler) (start : Nat) (more : List Char) :
    lexChars start (fs.flatMap chars ++ more) =
      lexChars (start + byteLength (fs.flatMap chars)) more := by
  induction fs generalizing start with
  | nil => rfl
  | cons f fs ih =>
    rw [List.flatMap_cons, List.append_assoc, f.lexChars_eq, ih, byteLength_append, Nat.add_assoc]

end Filler

namespace Separator
variable (s : Separator) (more : List Char)

theorem endsToken : EndsToken (s.chars ++ more) := by
  rw [chars, List.append_assoc]
  exact s.first.endsToken _

theorem lexChars_eq (start : Nat) :
    lexChars start (s.chars ++ more) = lexChars (start + byteLength s.chars) more :=
  Filler.lexChars_flatMap (s.first :: s.others) start more

end Separator

theorem lexChars_writeFrom (separator : Nat → Separator) (i start : Nat) (ws : List Written) :
    lexChars start (writeFrom separator i ws) = placedFrom separator i start ws := by
  induction ws generalizing i start with
  | nil =>
    rw [writeFrom, lexChars]
    rfl
  | cons w rest ih =>
    cases rest with
    | nil =>
      have hend : EndsToken [] := by simp [EndsToken]
      have hw := w.tokenText.lexChars_eq hend start
      rw [List.append_nil] at hw
      rw [writeFrom, hw, lexChars]
      rfl
    | cons next others =>
      have hsep := (separator i).endsToken (writeFrom separator (i + 1) (next :: others))
      rw [writeFrom, w.tokenText.lexChars_eq hsep start, (separator i).lexChars_eq, ih]
      · rfl
      · simp

theorem lex_write (separator : Nat → Separator) (ws : List Written) :
    lex (write separator ws) = placedFrom separator 0 0 ws := by
  rw [lex, write, String.toList_ofList, lexChars_writeFrom]

theorem parse_write_call (separator : Nat → Separator) (s : String) : ∃ name span,
    parse (write separator [.keyword .call, .text s]) = .ok [⟨.call ⟨s, name⟩, span⟩] := by
  have hlex := lex_write separator [.keyword .call, .text s]
  have hform : ScriptForm (tokensOf (placedFrom separator 0 0 [.keyword .call, .text s])) _ :=
    .statement (.statement .call) .empty
  have hread : unreadableOf (placedFrom separator 0 0 [.keyword .call, .text s]) = [] := rfl
  rw [← hlex] at hform hread
  exact ⟨_, _, parse_eq_ok_iff.2 ⟨hread, hform⟩⟩

/-- Whatever separates them, written tokens are read one for one, at the bytes that they were
written at. So every text can be expressed in a script, as the name of what is called. -/
theorem lex_inverts_write (separator : Nat → Separator) (ws : List Written) :
    lex (write separator ws) = placedFrom separator 0 0 ws ∧
    ∀ s : String, ∃ name span,
      parse (write separator [.keyword .call, .text s]) = .ok [⟨.call ⟨s, name⟩, span⟩] :=
  ⟨lex_write separator ws, parse_write_call separator⟩

example : write (fun _ => ⟨.comment ['"'] (by decide), [.blank '\t' rfl]⟩)
    [.keyword .call, .text "a\\\"n"] = "call//\"\n\t\"a\\\\\\\"n\"" := by decide

end BlockTemplate.Script
