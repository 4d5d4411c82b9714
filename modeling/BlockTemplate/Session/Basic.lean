import BlockTemplate.Error
import BlockTemplate.Session.Call
import BlockTemplate.Session.Declarations

/-! Sessions. Every call takes the next index, also one that is refused; a refused call changes
nothing else. -/
namespace BlockTemplate

structure OpenScope where
  header : Header
  openAt : Nat
  elseAt : Option Nat := none
  body : List Node := []
  elseBody : Option (List Node)
  inElse : Bool := false

namespace OpenScope

def start (header : Header) (openAt : Nat) : OpenScope :=
  { header, openAt, elseBody := if header.kind = .ifElse then some [] else none }

def switch (s : OpenScope) (index : Nat) : OpenScope :=
  { s with elseAt := some index, inElse := true }

def push (s : OpenScope) (n : Node) : OpenScope :=
  if s.inElse then { s with elseBody := some (s.elseBody.getD [] ++ [n]) }
  else { s with body := s.body ++ [n] }

def toNode (s : OpenScope) (closeAt : Option Nat) : Node :=
  .scope s.header s.openAt s.elseAt closeAt s.body s.elseBody

end OpenScope

structure Session where
  root : List Node := []
  /-- The open scopes, innermost first. -/
  opened : List OpenScope := []
  declarations : Declarations := {}
  next : Nat := 0

structure Outline where
  nodes : List Node
  declarations : Declarations
  calls : Nat

namespace Session

def empty : Session := {}

def depth (s : Session) : Nat := s.opened.length

def push (s : Session) (n : Node) : Session :=
  match s.opened with
  | [] => { s with root := s.root ++ [n] }
  | top :: rest => { s with opened := top.push n :: rest }

def skip (s : Session) : Session := { s with next := s.next + 1 }

def unknown? (s : Session) (values : List Value) : Option VarRef :=
  (Value.varRefsOfList values).find? (!s.declarations.isVisible ·)

/-- The value of a name. This is not a call; a failure blames the call it is meant for. -/
def resolve (s : Session) (name : String) : Except CompileError Value :=
  match s.declarations.resolve? name with
  | some v => .ok (.variable v)
  | none => .error (.unknownVariable s.next name)

abbrev Outcome := Except CompileError Unit × Session

def declare (s : Session) (name : String) (scope : VariableClass) (kind : Option Kind) :
    Session :=
  { s.skip with declarations := s.declarations.declare name scope kind }

def add (s : Session) (a : Action) : Outcome :=
  match s.unknown? a.params with
  | some v => (.error (.unknownVariable s.next v.name), s.skip)
  | none => (.ok (), s.skip.push (.action s.next a))

def openScope (s : Session) (h : Header) : Outcome :=
  match s.unknown? h.values with
  | some v => (.error (.unknownVariable s.next v.name), s.skip)
  | none =>
    (.ok (), { s.skip with
      opened := .start h s.next :: s.opened
      declarations := s.declarations.enter })

def elseBranch (s : Session) : Outcome :=
  match s.opened with
  | [] => (.error (.unbalancedScope s.next .elseOutside), s.skip)
  | top :: rest =>
    if top.header.kind ≠ .ifElse then
      (.error (.unbalancedScope s.next (.elseInside top.header.kind top.openAt)), s.skip)
    else if top.inElse then
      (.error (.unbalancedScope s.next (.elseTwice top.openAt)), s.skip)
    else
      (.ok (), { s.skip with
        opened := top.switch s.next :: rest
        declarations := s.declarations.exit.enter })

def close (s : Session) : Outcome :=
  match s.opened with
  | [] => (.error (.unbalancedScope s.next .closeOutside), s.skip)
  | top :: rest =>
    (.ok (), { s.skip with
      opened := rest
      declarations := s.declarations.exit }.push (top.toNode (some s.next)))

/-- Puts each open scope, not closed, into the branch around it. -/
def fold (node : Node) : List OpenScope → Node
  | [] => node
  | top :: rest => fold ((top.push node).toNode none) rest

def finish (s : Session) : Outline :=
  { nodes :=
      match s.opened with
      | [] => s.root
      | top :: rest => s.root ++ [fold (top.toNode none) rest]
    declarations := s.declarations
    calls := s.next }

end Session
end BlockTemplate
