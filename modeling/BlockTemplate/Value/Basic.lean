import BlockTemplate.Target
import BlockTemplate.Value.Kind

/-! Parameter values. -/
namespace BlockTemplate

structure Location where
  x : Float
  y : Float
  z : Float
  pitch : Option Float := none
  yaw : Option Float := none
  world : Option String := none
  isBlock : Bool := false
  deriving BEq

structure Vector3 where
  x : Float
  y : Float
  z : Float
  deriving BEq

structure Enchantment where
  id : String
  level : Nat
  deriving DecidableEq

/-- An item stack. Raw `nbt` is a compound whose entries follow the generated ones. -/
structure Item where
  material : String
  count : Nat := 1
  name : Option String := none
  lore : List String := []
  damage : Nat := 0
  unbreakable : Bool := false
  enchantments : List Enchantment := []
  nbt : Option String := none
  deriving DecidableEq

structure Sound where
  name : String
  pitch : Float := 1.0
  volume : Float := 2.0
  deriving BEq

def Potion.maxAmplifier : Nat := 255
def Potion.maxDuration : Nat := 1000000

structure Potion where
  effect : String
  amplifier : Nat := 0
  /-- In ticks. -/
  duration : Nat := Potion.maxDuration
  deriving DecidableEq

structure GameValue where
  kind : String
  target : Target := .default
  deriving DecidableEq

inductive Value where
  | text (s : String)
  | number (x : Float)
  | location (l : Location)
  | vector (v : Vector3)
  | item (i : Item)
  | sound (s : Sound)
  | potion (p : Potion)
  | particle (name : String)
  | gameValue (g : GameValue)
  | variable (v : VarRef)
  | list (items : List Value)
  | dict (entries : List (String × Value))

namespace Value

def kind : Value → Kind
  | .text _ => .text
  | .number _ => .number
  | .location _ => .location
  | .vector _ => .vector
  | .item _ => .item
  | .sound _ => .sound
  | .potion _ => .potion
  | .particle _ => .particle
  | .gameValue _ => .gameValue
  | .variable _ => .variable
  | .list _ => .list
  | .dict _ => .dict

mutual

def varRefs : Value → List VarRef
  | .variable v => [v]
  | .list items => varRefsOfList items
  | .dict entries => varRefsOfEntries entries
  | _ => []

def varRefsOfList : List Value → List VarRef
  | [] => []
  | v :: rest => v.varRefs ++ varRefsOfList rest

def varRefsOfEntries : List (String × Value) → List VarRef
  | [] => []
  | (_, v) :: rest => v.varRefs ++ varRefsOfEntries rest

end

end Value
end BlockTemplate
