import BlockTemplate.Json.Basic

/-! Reading text as a term. Arrays and objects may nest to any depth. -/
namespace BlockTemplate.Json

def isBlank (c : Char) : Bool := c = ' ' || c = '\t' || c = '\n' || c = '\r'

def skipBlanks (cs : List Char) : List Char := cs.dropWhile isBlank

/-- The inside of a text whose opening quote is taken, and what follows the closing one. Control
characters stand only as escapes. -/
def readText? : List Char → Option (List Char × List Char)
  | [] => none
  | '\\' :: 'u' :: a :: b :: c :: d :: rest =>
    if (hexFour? a b c d).isSome then
      (readText? rest).map fun (body, rest) => ('\\' :: 'u' :: a :: b :: c :: d :: body, rest)
    else none
  | '\\' :: c :: rest =>
    if (shortEscape? c).isSome then
      (readText? rest).map fun (body, rest) => ('\\' :: c :: body, rest)
    else none
  | c :: rest =>
    if c = '"' then some ([], rest)
    else if c = '\\' || c.toNat < 0x20 then none
    else (readText? rest).map fun (body, rest) => (c :: body, rest)

def readDigits? (cs : List Char) : Option (List Char × List Char) :=
  match cs.takeWhile Decimal.isDigit with
  | [] => none
  | digits => some (digits, cs.dropWhile Decimal.isDigit)

def readWhole? : List Char → Option (List Char × List Char)
  | '0' :: rest => some (['0'], rest)
  | cs => readDigits? cs

def readFraction? : List Char → Option (List Char × List Char)
  | '.' :: rest => readDigits? rest
  | cs => some ([], cs)

def readSign : List Char → Bool × List Char
  | '-' :: rest => (true, rest)
  | '+' :: rest => (false, rest)
  | cs => (false, cs)

def readExponent? : List Char → Option (Option (Bool × List Char) × List Char)
  | c :: rest =>
    if c = 'e' || c = 'E' then do
      let (negative, rest) := readSign rest
      let (digits, rest) ← readDigits? rest
      return (some (negative, digits), rest)
    else some (none, c :: rest)
  | [] => some (none, [])

def readUnsigned? (negative : Bool) (cs : List Char) : Option (Term × List Char) := do
  let (whole, rest) ← readWhole? cs
  let (fraction, rest) ← readFraction? rest
  let (exponent, rest) ← readExponent? rest
  return (.number { negative, whole, fraction, exponent }, rest)

def readNumber? : List Char → Option (Term × List Char)
  | '-' :: rest => readUnsigned? true rest
  | cs => readUnsigned? false cs

abbrev Reader (α : Type) := List Char → Option (α × List Char)

def readItems? {α : Type} (item : Reader α) (closing : Char) : Nat → Reader (List α)
  | 0, _ => none
  | n + 1, cs => do
    let (first, rest) ← item cs
    match skipBlanks rest with
    | [] => none
    | c :: rest =>
      if c = closing then return ([first], rest)
      else if c = ',' then
        let (others, rest) ← readItems? item closing n rest
        return (first :: others, rest)
      else none

def readSequence? {α : Type} (item : Reader α) (closing : Char) (n : Nat) : Reader (List α) :=
  fun cs =>
    match skipBlanks cs with
    | [] => none
    | c :: rest => if c = closing then some ([], rest) else readItems? item closing n (c :: rest)

def readField? (value : Reader Term) : Reader (List Char × Term) := fun cs =>
  match skipBlanks cs with
  | '"' :: rest => do
    let (key, rest) ← readText? rest
    match skipBlanks rest with
    | ':' :: rest =>
      let (t, rest) ← value rest
      return ((key, t), rest)
    | _ => none
  | _ => none

/-- A term of fewer characters than the number given. -/
def readTerm? : Nat → Reader Term
  | 0, _ => none
  | n + 1, cs =>
    match skipBlanks cs with
    | 'n' :: 'u' :: 'l' :: 'l' :: rest => some (.null, rest)
    | 't' :: 'r' :: 'u' :: 'e' :: rest => some (.bool true, rest)
    | 'f' :: 'a' :: 'l' :: 's' :: 'e' :: rest => some (.bool false, rest)
    | '"' :: rest => (readText? rest).map fun (body, rest) => (.text body, rest)
    | '[' :: rest =>
      (readSequence? (readTerm? n) ']' n rest).map fun (items, rest) => (.array items, rest)
    | '\x7b' :: rest =>
      (readSequence? (readField? (readTerm? n)) '\x7d' n rest).map
        fun (fields, rest) => (.object fields, rest)
    | cs => readNumber? cs

def Term.parse? (cs : List Char) : Option Term :=
  match readTerm? (cs.length + 1) cs with
  | some (t, rest) => if (skipBlanks rest).isEmpty then some t else none
  | none => none

end BlockTemplate.Json
