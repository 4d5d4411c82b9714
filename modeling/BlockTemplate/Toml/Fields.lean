import BlockTemplate.Toml.Tables

/-! Values read as the fields of a record. A record is a table that has no other keys, or an array
of the fields in order, where more than needed does no harm. -/
namespace BlockTemplate.Toml

def inOrder : List String → List Value → List (Option Value)
  | [], _ => []
  | _ :: names, [] => none :: inOrder names []
  | _ :: names, v :: rest => some v :: inOrder names rest

def lookup (entries : List (String × Value)) (name : String) : Option Value :=
  (entries.find? (·.1 == name)).map (·.2)

def maybe? {α : Type} (read : Value → Option α) : Option Value → Option (Option α)
  | none => some none
  | some v => (read v).map some

namespace Value

def fields? (names : List String) (least : Nat) : Value → Option (List (Option Value))
  | .table entries =>
    if entries.all (names.contains ·.1) then some (names.map (lookup entries)) else none
  | .array items => if least ≤ items.length then some (inOrder names items) else none
  | _ => none

def text? : Value → Option String
  | .text s => some s
  | _ => none

def bool? : Value → Option Bool
  | .bool b => some b
  | _ => none

def natBelow? (bound : Nat) : Value → Option Nat
  | .integer n => if 0 ≤ n ∧ n < bound then some n.toNat else none
  | _ => none

def float? : Value → Option Float
  | .real x => some x
  | .integer n =>
    let x := Decimal.scaled n.natAbs 0
    some (if n < 0 then -x else x)
  | _ => none

def list? {α : Type} (item : Value → Option α) : Value → Option (List α)
  | .array items => items.mapM item
  | _ => none

/-- One of a few words. It may be the only key of a table that leads to nothing. -/
def word? : Value → Option String
  | .text s | .table [(s, .table [])] | .table [(s, .array [])] => some s
  | _ => none

end Value
end BlockTemplate.Toml
