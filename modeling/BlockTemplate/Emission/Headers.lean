import BlockTemplate.Session.Flat

/-! Where header blocks may stand. An event or a definition is the first block of a code line, and
nothing follows the end of a definition. -/
namespace BlockTemplate

def Step.headerBlock? : Step → Option String
  | .action _ a => if a.category.isEvent then some a.category.id else none
  | .opened _ h => h.kind.definitionBlock?
  | _ => none

/-- Actions and openings count as blocks of the level they stand on. -/
def Step.startsBlock : Step → Bool
  | .action _ _ | .opened _ _ => true
  | _ => false

def Step.endedDefinition? : Step → Option String
  | .switched _ kind | .closed _ kind => kind.definitionBlock?
  | _ => none

/-- Open scopes, blocks at the outermost level, and the definition that has ended. -/
structure HeaderState where
  depth : Int := 0
  topLevel : Nat := 0
  ended : Option String := none

namespace HeaderState

def check (s : HeaderState) (step : Step) : Except CompileError Unit := do
  if let some block := s.ended then
    throw (.misplacedHeader step.index block .afterDefinition)
  if let some block := step.headerBlock? then
    if s.depth ≠ 0 ∨ s.topLevel ≠ 0 then
      throw (.misplacedHeader step.index block .notFirst)

def next (s : HeaderState) (step : Step) : HeaderState :=
  let depth := s.depth + step.delta
  { depth := depth
    topLevel := if s.depth = 0 ∧ step.startsBlock then s.topLevel + 1 else s.topLevel
    ended := if depth = 0 then step.endedDefinition? else none }

end HeaderState

def checkHeaders : HeaderState → List Step → Except CompileError Unit
  | _, [] => .ok ()
  | s, step :: rest => do
    s.check step
    checkHeaders (s.next step) rest

end BlockTemplate
