import BlockTemplate.Decimal.Basic
import BlockTemplate.Json.Escape

/-! JSON in two views: terms as they are written, and the data that they denote. -/
namespace BlockTemplate.Json

structure NumberText where
  negative : Bool
  whole : List Char
  fraction : List Char := []
  exponent : Option (Bool × List Char) := none
  deriving DecidableEq

/-- A term as written. Texts and keys are kept with their escapes. -/
inductive Term where
  | null
  | bool (b : Bool)
  | number (n : NumberText)
  | text (body : List Char)
  | array (items : List Term)
  | object (fields : List (List Char × Term))

inductive Data where
  | null
  | bool (b : Bool)
  | integer (n : Int)
  | real (x : Float)
  | text (s : String)
  | array (items : List Data)
  | object (fields : List (String × Data))

namespace NumberText

def exponentValue (n : NumberText) : Int :=
  match n.exponent with
  | none => 0
  | some (true, digits) => -(Decimal.ofDigits digits : Int)
  | some (false, digits) => Decimal.ofDigits digits

def toFloat (n : NumberText) : Float :=
  Decimal.toFloat n.negative n.whole n.fraction n.exponentValue

/-- The integer of a number without fraction and exponent, if it fits into 64 bits. Zero with a
sign is not an integer. -/
def toInt? (n : NumberText) : Option Int :=
  if !n.fraction.isEmpty || n.exponent.isSome then none
  else
    let m := Decimal.ofDigits n.whole
    if n.negative then if m = 0 ∨ 0x8000000000000000 < m then none else some (-(m : Int))
    else if m < UInt64.size then some m
    else none

def toData? (n : NumberText) : Option Data :=
  match n.toInt? with
  | some i => some (.integer i)
  | none => if n.toFloat.isFinite then some (.real n.toFloat) else none

end NumberText

mutual

/-- What a term denotes, if its arrays and objects nest at most as deep as the number given. -/
def Term.toData? (depth : Nat) : Term → Option Data
  | .null => some .null
  | .bool b => some (.bool b)
  | .number n => n.toData?
  | .text body => (unescape? body).map fun s => .text (String.ofList s)
  | .array items =>
    match depth with
    | 0 => none
    | depth + 1 => (listToData? depth items).map .array
  | .object fields =>
    match depth with
    | 0 => none
    | depth + 1 => (fieldsToData? depth fields).map .object

def listToData? (depth : Nat) : List Term → Option (List Data)
  | [] => some []
  | t :: rest => do
    let d ← t.toData? depth
    return d :: (← listToData? depth rest)

def fieldsToData? (depth : Nat) : List (List Char × Term) → Option (List (String × Data))
  | [] => some []
  | (key, t) :: rest => do
    let key ← unescape? key
    let d ← t.toData? depth
    return (String.ofList key, d) :: (← fieldsToData? depth rest)

end

end BlockTemplate.Json
