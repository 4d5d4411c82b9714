import BlockTemplate.Script.Constructor

/-! Statements as calls of a session: statement number `i` is call number `i`. -/
namespace BlockTemplate.Script

mutual

/-- The value of an expression, in the session before the statement that it stands in. -/
def Expr.value (s : Session) : Expr → Except Failure Value
  | .text t _ => .ok (.text t)
  | .number x _ => .ok (.number x)
  | .ident name span => .error (.meaningless (.bareIdentifier name) span)
  | .list items _ => do return .list (← valuesOf s items)
  | .dict entries _ => do return .dict (← entriesOf s entries)
  | .call head args span =>
    Constructor.value ⟨head, span, positionalArgs args, namedArgs args⟩ s

def valuesOf (s : Session) : List Expr → Except Failure (List Value)
  | [] => .ok []
  | e :: rest => do
    let v ← e.value s
    return v :: (← valuesOf s rest)

def entriesOf (s : Session) : List (Name × Expr) → Except Failure (List (String × Value))
  | [] => .ok []
  | (key, e) :: rest => do
    let v ← e.value s
    return (key.item, v) :: (← entriesOf s rest)

end

def targetOf : Option Name → Except Failure (Option Target)
  | none => .ok none
  | some name =>
    match Target.ofName? name.item with
    | some t => .ok (some t)
    | none => .error (.meaningless (.unknownTarget name.item) name.span)

def choicesOf (tags : TagList) : TagChoices := tags.map fun (tag, option) => (tag.item, option.item)

def ActionLine.toAction (s : Session) (line : ActionLine) : Except Failure Action := do
  let params ← valuesOf s line.args
  let target ← targetOf line.target
  return {
    category := line.category
    action := line.action.item
    params
    target
    tags := choicesOf line.tags }

def ConditionLine.toCondition (s : Session) (line : ConditionLine) : Except Failure Condition := do
  let values ← valuesOf s line.args
  let target ← targetOf line.target
  return {
    category := line.category
    action := line.action.item
    target
    values
    negated := line.negated
    tags := choicesOf line.tags }

def LoopLine.toLoop (s : Session) (line : LoopLine) : Except Failure Loop := do
  return {
    action := line.action.item
    values := ← valuesOf s line.args
    subAction := line.subAction.map (·.item)
    negated := line.negated
    tags := choicesOf line.tags }

def DefinitionLine.toDefinition (s : Session) (line : DefinitionLine) :
    Except Failure Definition := do
  return { name := line.name.item, values := ← valuesOf s line.args, tags := choicesOf line.tags }

def accepted (span : Span) : Session.Outcome → Except Failure Session
  | (.ok (), s) => .ok s
  | (.error error, _) => .error (.compile error (some span))

def Statement.apply (s : Session) (span : Span) : Statement → Except Failure Session
  | .event category name => accepted span (s.add { category, action := name.item })
  | .declare scope name kind => .ok (s.declare name.item scope kind)
  | .action line => do accepted span (s.add (← line.toAction s))
  | .call name => accepted span (s.add { category := .callFunction, action := name.item })
  | .start name => accepted span (s.add { category := .startProcess, action := name.item })
  | .ifThen line => do accepted span (s.openScope (.ifThen (← line.toCondition s)))
  | .ifElse line => do accepted span (s.openScope (.ifElse (← line.toCondition s)))
  | .otherwise => accepted span s.elseBranch
  | .close => accepted span s.close
  | .loop line => do accepted span (s.openScope (.loop (← line.toLoop s)))
  | .function line => do accepted span (s.openScope (.function (← line.toDefinition s)))
  | .process line => do accepted span (s.openScope (.process (← line.toDefinition s)))

def replay (s : Session) : List (Located Statement) → Except Failure Session
  | [] => .ok s
  | ⟨statement, span⟩ :: rest => do replay (← statement.apply s span) rest

end BlockTemplate.Script
