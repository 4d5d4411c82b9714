import BlockTemplate.Record.Parameter

/-! Documents: the block and bracket records of a template. -/
namespace BlockTemplate

structure Slot where
  item : Parameter
  slot : Nat
  deriving BEq

structure CodeBlock where
  block : String
  items : List Slot := []
  action : Option String := none
  subAction : Option String := none
  /-- The name that a definition or call block is about. -/
  data : Option String := none
  target : Option String := none
  inverted : Option String := none
  deriving BEq

inductive BracketSide where
  | opening | closing
  deriving DecidableEq

inductive BracketType where
  | normal | repeating
  deriving DecidableEq

def BracketSide.word : BracketSide → String
  | .opening => "open"
  | .closing => "close"

def BracketType.word : BracketType → String
  | .normal => "norm"
  | .repeating => "repeat"

inductive Record where
  | block (b : CodeBlock)
  | bracket (side : BracketSide) (type : BracketType)
  deriving BEq

def Record.isBracket : Record → Bool
  | .bracket _ _ => true
  | .block _ => false

structure Document where
  blocks : List Record
  deriving BEq

end BlockTemplate
