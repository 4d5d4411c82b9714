import BlockTemplate.Text.Basic
import BlockTemplate.Toml.Moment

/-! Reading text as lines. -/
namespace BlockTemplate.Toml

def isBlank (c : Char) : Bool := c = ' ' || c = '\t'

def skipBlanks (cs : List Char) : List Char := cs.dropWhile isBlank

/-- The characters that stand for themselves: a tab and all but the control characters. -/
def isPlain (c : Char) : Bool := c = '\t' || (0x20 ≤ c.toNat && c.toNat ≠ 0x7F)

def skipBreak? : List Char → Option (List Char)
  | [] => some []
  | '\n' :: rest => some rest
  | '\r' :: '\n' :: rest => some rest
  | _ => none

def skipLineEnd? (cs : List Char) : Option (List Char) :=
  match skipBlanks cs with
  | '#' :: rest => skipBreak? (rest.dropWhile isPlain)
  | cs => skipBreak? cs

def skipLayout (inComment : Bool) : List Char → List Char
  | [] => []
  | c :: rest =>
    if inComment && isPlain c then skipLayout true rest
    else if isBlank c || c = '\n' then skipLayout false rest
    else if c = '#' then skipLayout true rest
    else if c = '\r' && rest.head? = some '\n' then skipLayout false rest
    else c :: rest

def codePoint? (width : Nat) (cs : List Char) : Option Char := do
  if cs.length < width then none
  let n ← Text.ofHex? 0 (cs.take width)
  if n.isValidChar then return Char.ofNat n else none

def escape? : List Char → Option (Char × Nat)
  | 'b' :: _ => some ('\x08', 1)
  | 't' :: _ => some ('\t', 1)
  | 'n' :: _ => some ('\n', 1)
  | 'f' :: _ => some ('\x0c', 1)
  | 'r' :: _ => some ('\r', 1)
  | '"' :: _ => some ('"', 1)
  | '\\' :: _ => some ('\\', 1)
  | 'u' :: rest => (codePoint? 4 rest).map (·, 5)
  | 'U' :: rest => (codePoint? 8 rest).map (·, 9)
  | _ => none

def readBasic? : Reader (List Char)
  | [] => none
  | '\\' :: rest =>
    match escape? rest with
    | some (c, n) => (readBasic? (rest.drop n)).map fun (s, rest) => (c :: s, rest)
    | none => none
  | c :: rest =>
    if c = '"' then some ([], rest)
    else if isPlain c then (readBasic? rest).map fun (s, rest) => (c :: s, rest)
    else none
termination_by cs => cs.length
decreasing_by all_goals simp only [List.length_cons, List.length_drop]; omega

def readLiteral? : Reader (List Char)
  | [] => none
  | c :: rest =>
    if c = '\x27' then some ([], rest)
    else if isPlain c then (readLiteral? rest).map fun (s, rest) => (c :: s, rest)
    else none

/-- Up to two quotes before the three that close a text belong to it. -/
def closingQuotes (quote : Char) : List Char → List Char × List Char
  | a :: b :: rest =>
    if a = quote then if b = quote then ([a, b], rest) else ([a], b :: rest)
    else ([], a :: b :: rest)
  | [a] => if a = quote then ([a], []) else ([], [a])
  | [] => ([], [])

def atBreak (cs : List Char) : Bool :=
  match skipBlanks cs with
  | '\n' :: _ | '\r' :: '\n' :: _ => true
  | _ => false

def skipBlankLines : List Char → List Char
  | [] => []
  | c :: rest =>
    if isBlank c || c = '\n' || (c = '\r' && rest.head? = some '\n') then skipBlankLines rest
    else c :: rest

theorem length_skipBlankLines_le (cs : List Char) : (skipBlankLines cs).length ≤ cs.length := by
  induction cs with
  | nil => simp [skipBlankLines]
  | cons c rest ih => grind [skipBlankLines]

/-- A text of several lines in triple double quotes. A backslash at the end of a line takes all
blanks and line ends after it away. -/
def readBasicLines? : Reader (List Char)
  | [] => none
  | '"' :: '"' :: '"' :: rest => some (closingQuotes '"' rest)
  | '\r' :: '\n' :: rest => (readBasicLines? rest).map fun (s, rest) => ('\n' :: s, rest)
  | '\\' :: rest =>
    if atBreak rest then readBasicLines? (skipBlankLines rest)
    else
      match escape? rest with
      | some (c, n) => (readBasicLines? (rest.drop n)).map fun (s, rest) => (c :: s, rest)
      | none => none
  | c :: rest =>
    if c = '\n' || isPlain c then (readBasicLines? rest).map fun (s, rest) => (c :: s, rest)
    else none
termination_by cs => cs.length
decreasing_by
  all_goals
    have := length_skipBlankLines_le rest
    simp only [List.length_cons, List.length_drop]
    omega

def readLiteralLines? : Reader (List Char)
  | [] => none
  | '\x27' :: '\x27' :: '\x27' :: rest => some (closingQuotes '\x27' rest)
  | '\r' :: '\n' :: rest => (readLiteralLines? rest).map fun (s, rest) => ('\n' :: s, rest)
  | c :: rest =>
    if c = '\n' || isPlain c then (readLiteralLines? rest).map fun (s, rest) => (c :: s, rest)
    else none

def skipFirstBreak : List Char → List Char
  | '\n' :: rest => rest
  | '\r' :: '\n' :: rest => rest
  | cs => cs

def readText? : Reader Term := fun cs =>
  let read :=
    match cs with
    | '"' :: '"' :: '"' :: rest => readBasicLines? (skipFirstBreak rest)
    | '"' :: rest => readBasic? rest
    | '\x27' :: '\x27' :: '\x27' :: rest => readLiteralLines? (skipFirstBreak rest)
    | '\x27' :: rest => readLiteral? rest
    | _ => none
  read.map fun (s, rest) => (.text (String.ofList s), rest)

def underscoresInside : Bool → List Char → Bool
  | afterDigit, [] => afterDigit
  | afterDigit, c :: rest =>
    if c = '_' then afterDigit && underscoresInside false rest else underscoresInside true rest

def readDigits? (isDigit : Char → Bool) : Reader (List Char) := fun cs =>
  let inRow (c : Char) : Bool := isDigit c || c = '_'
  let row := cs.takeWhile inRow
  if underscoresInside false row then some (row.filter (· ≠ '_'), cs.dropWhile inRow) else none

def readWhole? : Reader (List Char)
  | '0' :: rest => some (['0'], rest)
  | cs => readDigits? Decimal.isDigit cs

def readSign : List Char → Bool × List Char
  | '-' :: rest => (true, rest)
  | '+' :: rest => (false, rest)
  | cs => (false, cs)

def integer? (n : Int) : Option Term :=
  if -0x8000000000000000 ≤ n ∧ n < 0x8000000000000000 then some (.integer n) else none

def radixValue (radix : Nat) (digits : List Char) : Nat :=
  digits.foldl (fun n c => radix * n + (Text.hexValue? c).getD 0) 0

def readRadix? (radix : Nat) : Reader Term := fun cs => do
  let isDigit (c : Char) : Bool := (Text.hexValue? c).any (· < radix)
  let (digits, rest) ← readDigits? isDigit cs
  return (← integer? (radixValue radix digits), rest)

def readFraction? : Reader (Option (List Char))
  | '.' :: rest => (readDigits? Decimal.isDigit rest).map fun (digits, rest) => (some digits, rest)
  | cs => some (none, cs)

def readExponent? : Reader (Option Int)
  | c :: rest =>
    if c = 'e' || c = 'E' then do
      let (negative, rest) := readSign rest
      let (digits, rest) ← readDigits? Decimal.isDigit rest
      let n : Int := Decimal.ofDigits digits
      return (some (if negative then -n else n), rest)
    else some (none, c :: rest)
  | [] => some (none, [])

/-- A number too large for a double is refused, unless it is negative. -/
def readDecimal? (negative : Bool) : Reader Term := fun cs => do
  let (whole, rest) ← readWhole? cs
  let (fraction, rest) ← readFraction? rest
  let (exponent, rest) ← readExponent? rest
  if fraction.isNone && exponent.isNone then
    let n : Int := Decimal.ofDigits whole
    return (← integer? (if negative then -n else n), rest)
  let x := Decimal.toFloat negative whole (fraction.getD []) (exponent.getD 0)
  if x.isInf && !negative then none
  return (.real x, rest)

def infinity : Float := 1.0 / 0.0
def notANumber : Float := 0.0 / 0.0

def readSigned? (negative : Bool) : Reader Term
  | 'i' :: 'n' :: 'f' :: rest => some (.real (if negative then -infinity else infinity), rest)
  | 'n' :: 'a' :: 'n' :: rest => some (.real notANumber, rest)
  | cs => readDecimal? negative cs

def readNumber? : Reader Term
  | '0' :: 'x' :: rest => readRadix? 16 rest
  | '0' :: 'o' :: rest => readRadix? 8 rest
  | '0' :: 'b' :: rest => readRadix? 2 rest
  | cs =>
    let (negative, rest) := readSign cs
    readSigned? negative rest

def isBareKeyChar (c : Char) : Bool :=
  ('a' ≤ c && c ≤ 'z') || ('A' ≤ c && c ≤ 'Z') || Decimal.isDigit c || c = '_' || c = '-'

def readKey? : Reader String := fun cs =>
  let read :=
    match cs with
    | '"' :: rest => readBasic? rest
    | '\x27' :: rest => readLiteral? rest
    | cs =>
      let key := cs.takeWhile isBareKeyChar
      if key.isEmpty then none else some (key, cs.dropWhile isBareKeyChar)
  read.map fun (s, rest) => (String.ofList s, rest)

/-- No path is longer, and no values nest deeper. -/
def maxDepth : Nat := 79

def readPath? : Nat → Reader Path
  | 0, _ => none
  | n + 1, cs => do
    let (key, rest) ← readKey? (skipBlanks cs)
    match skipBlanks rest with
    | '.' :: rest =>
      let (keys, rest) ← readPath? n rest
      return (key :: keys, rest)
    | rest => return ([key], rest)

def readPair? (value : Reader Term) : Reader (Path × Term) := fun cs => do
  let (path, rest) ← readPath? maxDepth cs
  match rest with
  | '=' :: rest =>
    let (t, rest) ← value (skipBlanks rest)
    return ((path, t), rest)
  | _ => none

def readItems? (item : Reader Term) : Nat → Reader (List Term)
  | 0, _ => none
  | n + 1, cs =>
    match skipLayout false cs with
    | ']' :: rest => some ([], rest)
    | cs => do
      let (first, rest) ← item cs
      match skipLayout false rest with
      | ']' :: rest => return ([first], rest)
      | ',' :: rest =>
        let (others, rest) ← readItems? item n rest
        return (first :: others, rest)
      | _ => none

def readPairs? (pair : Reader (Path × Term)) : Nat → Reader (List (Path × Term))
  | 0, _ => none
  | n + 1, cs => do
    let (first, rest) ← pair cs
    match skipBlanks rest with
    | '\x7d' :: rest => return ([first], rest)
    | ',' :: rest =>
      let (others, rest) ← readPairs? pair n rest
      return (first :: others, rest)
    | _ => none

def readTerm? : Nat → Reader Term
  | depth, cs =>
    match cs with
    | [] => none
    | c :: rest =>
      if c = '"' || c = '\x27' then readText? cs
      else if c = '[' then
        match depth with
        | 0 => none
        | depth + 1 =>
          (readItems? (readTerm? depth) cs.length rest).map
            fun (items, rest) => (.array items, rest)
      else if c = '\x7b' then
        match depth with
        | 0 => none
        | depth + 1 =>
          match skipBlanks rest with
          | '\x7d' :: rest => some (.inline [], rest)
          | rest =>
            (readPairs? (readPair? (readTerm? depth)) cs.length rest).map
              fun (pairs, rest) => (.inline pairs, rest)
      else
        match cs with
        | 't' :: 'r' :: 'u' :: 'e' :: rest => some (.bool true, rest)
        | 'f' :: 'a' :: 'l' :: 's' :: 'e' :: rest => some (.bool false, rest)
        | cs =>
          match readMoment? cs with
          | some (m, rest) => some (.moment m, rest)
          | none => readNumber? cs

def readTable? : Reader Line := fun cs => do
  let (path, rest) ← readPath? maxDepth cs
  match rest with
  | ']' :: rest => return (.table path, rest)
  | _ => none

def readElement? : Reader Line := fun cs => do
  let (path, rest) ← readPath? maxDepth cs
  match rest with
  | ']' :: ']' :: rest => return (.element path, rest)
  | _ => none

def readLine? : Reader Line
  | '[' :: '[' :: rest => readElement? rest
  | '[' :: rest => readTable? rest
  | cs => (readPair? (readTerm? maxDepth) cs).map fun ((path, t), rest) => (.pair path t, rest)

def readLines? : Nat → List Char → Option (List Line)
  | 0, _ => none
  | n + 1, cs =>
    match skipBlanks cs with
    | [] => some []
    | '\n' :: rest => readLines? n rest
    | '\r' :: '\n' :: rest => readLines? n rest
    | '#' :: rest => do readLines? n (← skipLineEnd? ('#' :: rest))
    | cs => do
      let (line, rest) ← readLine? cs
      return line :: (← readLines? n (← skipLineEnd? rest))

def parseLines? (s : String) : Option (List Line) :=
  match s.toList with
  | '\ufeff' :: rest => readLines? (rest.length + 1) rest
  | cs => readLines? (cs.length + 1) cs

end BlockTemplate.Toml
