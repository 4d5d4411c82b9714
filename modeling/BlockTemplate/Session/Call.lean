import BlockTemplate.Block
import BlockTemplate.Value.Basic

/-! What a session is told, actions to add and headers of scopes to open, and the tree that comes of
it. -/
namespace BlockTemplate

abbrev TagChoices := List (String × String)

/-- One code block. For call blocks `action` is the name that is called. -/
structure Action where
  category : BlockCategory
  action : String
  params : List Value := []
  target : Option Target := none
  tags : TagChoices := []

structure Condition where
  category : ConditionCategory
  action : String
  target : Option Target := none
  values : List Value := []
  negated : Bool := false
  tags : TagChoices := []

structure Loop where
  action : String
  values : List Value := []
  subAction : Option String := none
  negated : Bool := false
  tags : TagChoices := []

structure Definition where
  name : String
  values : List Value := []
  tags : TagChoices := []

inductive ScopeKind where
  | ifThen | ifElse | loop | function | process
  deriving DecidableEq

def ScopeKind.all : List ScopeKind := [.ifThen, .ifElse, .loop, .function, .process]

def ScopeKind.name : ScopeKind → String
  | .ifThen => "if"
  | .ifElse => "if-else"
  | .loop => "repeat"
  | .function => "function"
  | .process => "process"

def ScopeKind.definitionBlock? : ScopeKind → Option String
  | .function => some functionBlock
  | .process => some processBlock
  | _ => none

inductive Header where
  | ifThen (c : Condition)
  | ifElse (c : Condition)
  | loop (l : Loop)
  | function (d : Definition)
  | process (d : Definition)

namespace Header

def kind : Header → ScopeKind
  | .ifThen _ => .ifThen
  | .ifElse _ => .ifElse
  | .loop _ => .loop
  | .function _ => .function
  | .process _ => .process

def values : Header → List Value
  | .ifThen c | .ifElse c => c.values
  | .loop l => l.values
  | .function d | .process d => d.values

end Header

inductive Node where
  | action (index : Nat) (call : Action)
  /-- `closeAt` is absent while the scope is open, `elseAt` unless its else branch was entered. -/
  | scope (header : Header) (openAt : Nat) (elseAt closeAt : Option Nat)
      (body : List Node) (elseBody : Option (List Node))

end BlockTemplate
