import BlockTemplate.Session.Flat
import BlockTemplate.Text.Basic
import BlockTemplate.Value.Display

/-! Listings of flat sequences, a line for each step, indented by the scopes around it. -/
namespace BlockTemplate.Listing

def targetText : Option Target → String
  | some t => " @" ++ t.name
  | none => ""

def notText (negated : Bool) : String := if negated then " NOT" else ""

def valuesText (values : List Value) : String :=
  if values.isEmpty then ""
  else " (" ++ Text.joinWith ", " (values.map (·.display)) ++ ")"

def choiceText : String × String → String
  | (tag, option) => Text.quoted tag ++ " = " ++ Text.quoted option

def tagsText (tags : TagChoices) : String :=
  if tags.isEmpty then ""
  else " \x7b" ++ Text.joinWith ", " (tags.map choiceText) ++ "\x7d"

def actionText (a : Action) : String :=
  if a.category.isCall then a.category.id ++ " " ++ Text.quoted a.action
  else a.category.id ++ " " ++ a.action ++ targetText a.target ++ valuesText a.params ++
    tagsText a.tags

def conditionText (c : Condition) : String :=
  c.category.id ++ " " ++ c.action ++ targetText c.target ++ notText c.negated ++
    valuesText c.values ++ tagsText c.tags

def subActionText : Option String → String
  | some s => " " ++ s
  | none => ""

def loopText (l : Loop) : String :=
  repeatBlock ++ " " ++ l.action ++ subActionText l.subAction ++ notText l.negated ++
    valuesText l.values ++ tagsText l.tags

def definitionText (block : String) (d : Definition) : String :=
  block ++ " " ++ Text.quoted d.name ++ valuesText d.values ++ tagsText d.tags

def headerText : Header → String
  | .ifThen c | .ifElse c => conditionText c
  | .loop l => loopText l
  | .function d => definitionText functionBlock d
  | .process d => definitionText processBlock d

def stepText : Step → String
  | .action _ a => actionText a
  | .opened _ h => headerText h ++ " \x7b"
  | .switched _ _ => "\x7d else \x7b"
  | .closed _ _ => "\x7d"

/-- The level of a step's own line, from the number of open scopes before it. -/
def level (depth : Nat) : Step → Nat
  | .action _ _ | .opened _ _ => depth
  | .switched _ _ | .closed _ _ => depth - 1

def depthAfter (depth : Nat) : Step → Nat
  | .action _ _ | .switched _ _ => depth
  | .opened _ _ => depth + 1
  | .closed _ _ => depth - 1

def indent (level : Nat) : String := String.ofList (List.replicate (4 * level) ' ')

def line (depth : Nat) (step : Step) : String :=
  indent (level depth step) ++ stepText step ++ "\n"

def lines : Nat → List Step → List String
  | _, [] => []
  | depth, step :: rest => line depth step :: lines (depthAfter depth step) rest

def render (steps : List Step) : String := Text.joinWith "" (lines 0 steps)

end BlockTemplate.Listing
