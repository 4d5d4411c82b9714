import BlockTemplate.Error
import BlockTemplate.Session.Call

/-! The flat form of a tree: actions, and marks where scopes open, switch to their else branch and
close. -/
namespace BlockTemplate

inductive Step where
  | action (index : Nat) (call : Action)
  | opened (index : Nat) (header : Header)
  | switched (index : Nat) (kind : ScopeKind)
  | closed (index : Nat) (kind : ScopeKind)

namespace Step

def index : Step → Nat
  | .action i _ | .opened i _ | .switched i _ | .closed i _ => i

def delta : Step → Int
  | .action _ _ | .switched _ _ => 0
  | .opened _ _ => 1
  | .closed _ _ => -1

end Step

mutual

/-- A scope that was never closed is refused before anything in it. -/
def Node.flatten : Node → Except CompileError (List Step)
  | .action index call => .ok [.action index call]
  | .scope header openAt _ none _ _ =>
    .error (.unbalancedScope openAt (.unclosed header.kind openAt))
  | .scope header openAt _ (some closeAt) body none => do
    let inner ← flattenNodes body
    return .opened openAt header :: inner ++ [.closed closeAt header.kind]
  | .scope header openAt elseAt (some closeAt) body (some elseBody) => do
    let inner ← flattenNodes body
    let other ← flattenNodes elseBody
    return .opened openAt header :: inner ++
      .switched (elseAt.getD closeAt) header.kind :: other ++ [.closed closeAt header.kind]

def flattenNodes : List Node → Except CompileError (List Step)
  | [] => .ok []
  | n :: rest => do
    let first ← n.flatten
    return first ++ (← flattenNodes rest)

end

/-- Every close has an open before it and every open a close after it. The open scopes are listed
innermost first. -/
def checkBalance : List Nat → List Step → Except CompileError Unit
  | opened, [] =>
    match opened.getLast? with
    | some openAt => .error (.unbalancedScope openAt (.openUnmatched openAt))
    | none => .ok ()
  | opened, .opened i _ :: rest => checkBalance (i :: opened) rest
  | [], .closed i _ :: _ => .error (.unbalancedScope i .closeUnmatched)
  | _ :: opened, .closed _ _ :: rest => checkBalance opened rest
  | opened, .action _ _ :: rest | opened, .switched _ _ :: rest => checkBalance opened rest

def flatten (nodes : List Node) : Except CompileError (List Step) := do
  let steps ← flattenNodes nodes
  checkBalance [] steps
  return steps

end BlockTemplate
