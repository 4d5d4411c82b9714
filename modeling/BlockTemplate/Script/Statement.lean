import BlockTemplate.Block
import BlockTemplate.Script.Token
import BlockTemplate.Value.Kind

/-! Scripts as trees of statements and expressions. -/
namespace BlockTemplate.Script

abbrev Name := Located String

inductive Expr where
  | text (s : String) (span : Span)
  | number (x : Float) (span : Span)
  | ident (s : String) (span : Span)
  | list (items : List Expr) (span : Span)
  | dict (entries : List (Name × Expr)) (span : Span)
  /-- Arguments without a name are positional. -/
  | call (head : Name) (args : List (Option Name × Expr)) (span : Span)

def Expr.span : Expr → Span
  | .text _ span | .number _ span | .ident _ span
  | .list _ span | .dict _ span | .call _ _ span => span

abbrev TagList := List (Name × Name)

structure ActionLine where
  category : BlockCategory
  action : Name
  target : Option Name
  args : List Expr
  tags : TagList

structure ConditionLine where
  category : ConditionCategory
  negated : Bool
  action : Name
  target : Option Name
  args : List Expr
  tags : TagList

structure LoopLine where
  action : Name
  subAction : Option Name
  negated : Bool
  args : List Expr
  tags : TagList

structure DefinitionLine where
  name : Name
  args : List Expr
  tags : TagList

inductive Statement where
  | event (category : BlockCategory) (action : Name)
  | declare (scope : VariableClass) (name : Name) (kind : Option Kind)
  | action (line : ActionLine)
  | call (name : Name)
  | start (name : Name)
  | ifThen (line : ConditionLine)
  | ifElse (line : ConditionLine)
  | otherwise
  | close
  | loop (line : LoopLine)
  | function (line : DefinitionLine)
  | process (line : DefinitionLine)

def actionCategory? (word : String) : Option BlockCategory :=
  match word with
  | "player" => some .playerAction
  | "entity" => some .entityAction
  | "game" => some .gameAction
  | "control" => some .control
  | "set" => some .setVariable
  | "select" => some .selectObject
  | _ => none

def conditionCategory? (word : String) : Option ConditionCategory :=
  match word with
  | "player" => some .player
  | "entity" => some .entity
  | "game" => some .game
  | "var" => some .variable
  | _ => none

def eventCategory? (word : String) : Option BlockCategory :=
  match word with
  | "player" => some .event
  | "entity" => some .entityEvent
  | _ => none

end BlockTemplate.Script
