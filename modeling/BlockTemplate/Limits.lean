/-! The limits that values and parameter lists are checked against. -/
namespace BlockTemplate

/-- The largest count that fits the byte tag of a stack. -/
def largestStack : Nat := 127

structure Limits where
  /-- Slots of a code block, those of tags included. -/
  maxParameters : Nat := 27
  maxFunctionNameLength : Nat := 16
  maxLoreLines : Nat := 100
  maxStackSize : Nat := 64
  coordinateBound : Float := 30000000.0
  translateColors : Bool := true
  deriving BEq

end BlockTemplate
