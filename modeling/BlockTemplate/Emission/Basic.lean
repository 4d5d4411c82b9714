import BlockTemplate.Emission.Arguments
import BlockTemplate.Emission.Headers
import BlockTemplate.Schema.Table

/-! The records of a flat sequence. -/
namespace BlockTemplate

namespace Site

def checkTarget (site : Site) (side : Option Side) (target : Option Target) :
    Except CompileError Unit :=
  match target, side with
  | none, _ => .ok ()
  | some t, some side =>
    if t.allowedOn side then .ok () else .error (.invalidTarget site.index site.block t)
  | some t, none => .error (.invalidTarget site.index site.block t)

def checkName (site : Site) (limits : Limits) (name : String) : Except CompileError Unit :=
  if name = "" then .error (.invalidValue site.index (.empty "function name"))
  else if limits.maxFunctionNameLength < name.length then
    .error (.invalidValue site.index
      (.tooLong "function name" name.length limits.maxFunctionNameLength))
  else .ok ()

def schema (site : Site) (table : SchemaTable) : Except CompileError ActionSchema :=
  match table.lookup site.block site.action with
  | some schema => .ok schema
  | none => .error (.unknownAction site.index site.block site.action)

def slots (site : Site) (table : SchemaTable) (limits : Limits) (values : List Value)
    (choices : TagChoices) : Except CompileError (List Slot) := do
  let schema ← site.schema table
  match arguments site limits schema values choices with
  | .ok slots => return slots
  | .error (.fault f) =>
    throw (.parameterMismatch site.index site.block site.action schema.signature f)
  | .error (.value e) => throw (.invalidValue site.index e)

end Site

def invertedMark (negated : Bool) : Option String := if negated then some "NOT" else none

/-- The block of an action. Calls carry the name and take no arguments. -/
def Action.record (table : SchemaTable) (limits : Limits) (index : Nat) (a : Action) :
    Except CompileError Record := do
  let site : Site := ⟨index, a.category.id, a.action⟩
  site.checkTarget a.category.side? a.target
  if a.category.isCall then
    let given := a.params.length + a.tags.length
    if 0 < given then
      throw (.parameterMismatch index site.block site.action "()" (.callTakesNone given))
    site.checkName limits a.action
    return .block { block := site.block, data := some a.action }
  let items ← site.slots table limits a.params a.tags
  return .block
    { block := site.block, items, action := some a.action, target := a.target.map (·.name) }

def Condition.records (table : SchemaTable) (limits : Limits) (index : Nat) (c : Condition) :
    Except CompileError (List Record) := do
  let site : Site := ⟨index, c.category.id, c.action⟩
  site.checkTarget c.category.side? c.target
  let items ← site.slots table limits c.values c.tags
  return [.block
      { block := site.block, items, action := some c.action, target := c.target.map (·.name)
        inverted := invertedMark c.negated },
    .bracket .opening .normal]

def Loop.records (table : SchemaTable) (limits : Limits) (index : Nat) (l : Loop) :
    Except CompileError (List Record) := do
  let site : Site := ⟨index, repeatBlock, l.action⟩
  let items ← site.slots table limits l.values l.tags
  return [.block
      { block := site.block, items, action := some l.action, subAction := l.subAction
        inverted := invertedMark l.negated },
    .bracket .opening .repeating]

/-- A definition reaches to the end of the line and has no brackets. -/
def Definition.records (table : SchemaTable) (limits : Limits) (index : Nat) (block : String)
    (d : Definition) : Except CompileError (List Record) := do
  let site : Site := ⟨index, block, definitionAction⟩
  site.checkName limits d.name
  let items ← site.slots table limits d.values d.tags
  return [.block { block := site.block, items, data := some d.name }]

def Header.records (table : SchemaTable) (limits : Limits) (index : Nat) :
    Header → Except CompileError (List Record)
  | .ifThen c | .ifElse c => c.records table limits index
  | .loop l => l.records table limits index
  | .function d => d.records table limits index functionBlock
  | .process d => d.records table limits index processBlock

def ScopeKind.bracket? : ScopeKind → Option BracketType
  | .ifThen | .ifElse => some .normal
  | .loop => some .repeating
  | .function | .process => none

def closing (kind : ScopeKind) : List Record :=
  match kind.bracket? with
  | some type => [.bracket .closing type]
  | none => []

def switching (kind : ScopeKind) : List Record :=
  match kind.bracket? with
  | some type =>
    [.bracket .closing type, .block { block := elseBlock }, .bracket .opening .normal]
  | none => []

def Step.records (table : SchemaTable) (limits : Limits) : Step → Except CompileError (List Record)
  | .action index a => do return [← a.record table limits index]
  | .opened index h => h.records table limits index
  | .switched _ kind => .ok (switching kind)
  | .closed _ kind => .ok (closing kind)

def recordsOf (table : SchemaTable) (limits : Limits) :
    List Step → Except CompileError (List Record)
  | [] => .ok []
  | step :: rest => do
    let first ← step.records table limits
    return first ++ (← recordsOf table limits rest)

def emit (table : SchemaTable) (limits : Limits) (steps : List Step) :
    Except CompileError (List Record) := do
  checkHeaders {} steps
  recordsOf table limits steps

end BlockTemplate
