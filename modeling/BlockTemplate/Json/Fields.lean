import BlockTemplate.Json.Basic

/-! Data read as the fields of a record. A record is an object, where other fields are passed over
and none of its own may be repeated, or an array of its fields in order. -/
namespace BlockTemplate.Json

def fieldsNamed (name : String) (fields : List (String × Data)) : List Data :=
  (fields.filter (·.1 == name)).map (·.2)

def objectValues? : List String → List (String × Data) → Option (List (Option Data))
  | [], _ => some []
  | name :: names, fields =>
    match fieldsNamed name fields with
    | [] => (objectValues? names fields).map (none :: ·)
    | [d] => (objectValues? names fields).map (some d :: ·)
    | _ => none

/-- Fields at the end may be left out. -/
def arrayValues? : List String → List Data → Option (List (Option Data))
  | [], [] => some []
  | [], _ :: _ => none
  | _ :: names, [] => (arrayValues? names []).map (none :: ·)
  | _ :: names, d :: rest => (arrayValues? names rest).map (some d :: ·)

def required? (names : List String) (fields : List (String × Data)) : Option (List Data) := do
  (← objectValues? names fields).mapM id

def optionalText? : Option Data → Option (Option String)
  | none | some .null => some none
  | some (.text s) => some (some s)
  | some _ => none

namespace Data

def fields? (names : List String) : Data → Option (List (Option Data))
  | .object fields => objectValues? names fields
  | .array items => arrayValues? names items
  | _ => none

def text? : Data → Option String
  | .text s => some s
  | _ => none

def bool? : Data → Option Bool
  | .bool b => some b
  | _ => none

def float? : Data → Option Float
  | .real x => some x
  | .integer n =>
    let x := Decimal.scaled n.natAbs 0
    some (if n < 0 then -x else x)
  | _ => none

def natBelow? (bound : Nat) : Data → Option Nat
  | .integer n => if 0 ≤ n ∧ n < bound then some n.toNat else none
  | _ => none

def array? : Data → Option (List Data)
  | .array items => some items
  | _ => none

/-- One of a few words. It may be the only key of an object that holds nothing. -/
def word? : Data → Option String
  | .text s | .object [(s, .null)] | .object [(s, .object [])] => some s
  | _ => none

end Data
end BlockTemplate.Json
