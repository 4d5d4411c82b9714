import BlockTemplate.Decimal.Basic
import BlockTemplate.Toml.Basic

/-! Reading dates and times of day. -/
namespace BlockTemplate.Toml

def isLeapYear (year : Nat) : Bool := year % 4 = 0 && (year % 100 ≠ 0 || year % 400 = 0)

def daysInMonth (year month : Nat) : Nat :=
  match month with
  | 2 => if isLeapYear year then 29 else 28
  | 4 | 6 | 9 | 11 => 30
  | _ => 31

def readFixed? (width low high : Nat) : Reader Nat := fun cs =>
  let digits := cs.take width
  let n := Decimal.ofDigits digits
  if digits.length = width && digits.all Decimal.isDigit && low ≤ n && n ≤ high then
    some (n, cs.drop width)
  else none

def skipMark? (mark : Char) : List Char → Option (List Char)
  | [] => none
  | c :: rest => if c = mark then some rest else none

def readDate? : Reader Date := fun cs => do
  let (year, rest) ← readFixed? 4 0 9999 cs
  let (month, rest) ← readFixed? 2 1 12 (← skipMark? '-' rest)
  let (day, rest) ← readFixed? 2 1 (daysInMonth year month) (← skipMark? '-' rest)
  return (⟨year, month, day⟩, rest)

def nanoseconds (digits : List Char) : Nat :=
  Decimal.ofDigits (digits.take 9) * Nat.pow 10 (9 - digits.length)

/-- A point without digits is no fraction and stays. -/
def readNanoseconds : List Char → Nat × List Char
  | '.' :: rest =>
    match rest.takeWhile Decimal.isDigit with
    | [] => (0, '.' :: rest)
    | digits => (nanoseconds digits, rest.dropWhile Decimal.isDigit)
  | cs => (0, cs)

def readClock? : Reader Clock := fun cs => do
  let (hour, rest) ← readFixed? 2 0 23 cs
  let (minute, rest) ← readFixed? 2 0 59 (← skipMark? ':' rest)
  let (second, rest) ← readFixed? 2 0 60 (← skipMark? ':' rest)
  let (nanosecond, rest) := readNanoseconds rest
  return (⟨hour, minute, second, nanosecond⟩, rest)

def readMinutes? : Reader Nat := fun cs => do
  let (hours, rest) ← readFixed? 2 0 23 cs
  let (minutes, rest) ← readFixed? 2 0 59 (← skipMark? ':' rest)
  return (60 * hours + minutes, rest)

def readOffset? : Reader (Option Int)
  | 'Z' :: rest | 'z' :: rest => some (some 0, rest)
  | '+' :: rest => (readMinutes? rest).map fun (n, rest) => (some (n : Int), rest)
  | '-' :: rest => (readMinutes? rest).map fun (n, rest) => (some (-n : Int), rest)
  | cs => some (none, cs)

/-- A blank may stand between a date and its time of day; before anything else it ends the date. -/
def readDateTime? : Reader Moment := fun cs => do
  let (date, rest) ← readDate? cs
  match rest with
  | 'T' :: after | 't' :: after | ' ' :: after =>
    match readClock? after with
    | some (clock, rest) =>
      let (offset, rest) ← readOffset? rest
      return (.dateTime date clock offset, rest)
    | none => return (.date date, rest)
  | _ => return (.date date, rest)

def readMoment? : Reader Moment := fun cs =>
  match readDateTime? cs with
  | some read => some read
  | none => (readClock? cs).map fun (clock, rest) => (.clock clock, rest)

end BlockTemplate.Toml
