import BlockTemplate.Script.Token

/-! Reading a source text as tokens. What is neither blank nor the start of a token is set apart as
unreadable, so that nothing is passed over. -/
namespace BlockTemplate.Script

def isSpace (c : Char) : Bool := c = ' ' || c = '\t' || c = '\n' || c = '\r'

def isWordStart (c : Char) : Bool :=
  ('a' ≤ c && c ≤ 'z') || ('A' ≤ c && c ≤ 'Z') || c = '_'

def isWordChar (c : Char) : Bool := isWordStart c || Decimal.isDigit c

def wordToken (cs : List Char) : Token :=
  match Keyword.ofWord? (String.ofList cs) with
  | some k => .keyword k
  | none => .ident (String.ofList cs)

def escaped (c : Char) : Char := if c = 'n' then '\n' else if c = 't' then '\t' else c

/-- What a quoted text holds, and its length from after the opening quote to the closing one.
A backslash takes the next character with it, which may not be a line feed. -/
def quotedText? : List Char → Option (List Char × Nat)
  | [] => none
  | ['\\'] => none
  | '\\' :: c :: rest =>
    if c = '\n' then none
    else (quotedText? rest).map fun (s, n) => (escaped c :: s, n + 2)
  | c :: rest =>
    if c = '"' then some ([], 1)
    else (quotedText? rest).map fun (s, n) => (c :: s, n + 1)

def unclosedLength : List Char → Nat
  | [] => 0
  | ['\\'] => 0
  | '\\' :: c :: rest => if c = '\n' then 0 else unclosedLength rest + 2
  | _ :: rest => unclosedLength rest + 1

def readNumber (negative : Bool) (cs : List Char) : Token × Nat :=
  let whole := cs.takeWhile Decimal.isDigit
  let fraction :=
    match cs.dropWhile Decimal.isDigit with
    | '.' :: rest => rest.takeWhile Decimal.isDigit
    | _ => []
  (.number (Decimal.toFloat negative whole fraction 0),
    whole.length + if fraction.isEmpty then 0 else fraction.length + 1)

def startsWithDigit : List Char → Bool
  | c :: _ => Decimal.isDigit c
  | [] => false

inductive Piece where
  | blank
  | token (t : Token)
  | unreadable

/-- The piece that starts with `c`, and how many more characters it has. -/
def readPiece (c : Char) (rest : List Char) : Piece × Nat :=
  if isSpace c then (.blank, 0)
  else if c = '/' && rest.head? = some '/' then
    (.blank, (rest.takeWhile (· ≠ '\n')).length)
  else if isWordStart c then
    let tail := rest.takeWhile isWordChar
    (.token (wordToken (c :: tail)), tail.length)
  else if Decimal.isDigit c then
    let (t, n) := readNumber false (c :: rest)
    (.token t, n - 1)
  else if c = '-' && startsWithDigit rest then
    let (t, n) := readNumber true rest
    (.token t, n)
  else if c = '"' then
    match quotedText? rest with
    | some (s, n) => (.token (.text (String.ofList s)), n)
    | none => (.unreadable, unclosedLength rest)
  else
    match Punct.ofChar? c with
    | some p => (.token (.punct p), 0)
    | none => (.unreadable, 0)

inductive Lexeme where
  | token (t : Token)
  | unreadable (text : String)
  deriving DecidableEq

def byteLength : List Char → Nat
  | [] => 0
  | c :: rest => c.utf8Size + byteLength rest

def lexChars (start : Nat) : List Char → List (Located Lexeme)
  | [] => []
  | c :: rest =>
    let (piece, n) := readPiece c rest
    let text := c :: rest.take n
    let stop := start + byteLength text
    let others := lexChars stop (rest.drop n)
    match piece with
    | .blank => others
    | .token t => ⟨.token t, ⟨start, stop⟩⟩ :: others
    | .unreadable => ⟨.unreadable (String.ofList text), ⟨start, stop⟩⟩ :: others
termination_by cs => cs.length
decreasing_by simp only [List.length_cons, List.length_drop]; omega

def lex (source : String) : List (Located Lexeme) := lexChars 0 source.toList

end BlockTemplate.Script
