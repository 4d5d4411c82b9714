import BlockTemplate.Text.Basic
import BlockTemplate.Value.Basic

/-! Schemas: the parameters and tags that an action takes. -/
namespace BlockTemplate

inductive ParamKind where
  | text | number | location | vector | item | sound | potion | particle
  | list | dict | variable | any
  deriving DecidableEq

namespace ParamKind

def all : List ParamKind :=
  [.text, .number, .location, .vector, .item, .sound, .potion, .particle,
   .list, .dict, .variable, .any]

def name : ParamKind → String
  | .text => "text"
  | .number => "number"
  | .location => "location"
  | .vector => "vector"
  | .item => "item"
  | .sound => "sound"
  | .potion => "potion"
  | .particle => "particle"
  | .list => "list"
  | .dict => "dict"
  | .variable => "variable"
  | .any => "any"

def ofName? (s : String) : Option ParamKind := all.find? (·.name == s)

/-- Whether values of a kind fit. Variables and game values stand in for every kind of parameter
but `variable`, which takes variables only. -/
def acceptsKind : ParamKind → Kind → Bool
  | .any, _ => true
  | .variable, k => k = .variable
  | _, .variable | _, .gameValue => true
  | .text, .text | .number, .number | .location, .location | .vector, .vector
  | .item, .item | .sound, .sound | .potion, .potion | .particle, .particle
  | .list, .list | .dict, .dict => true
  | _, _ => false

def accepts (p : ParamKind) (v : Value) : Bool := p.acceptsKind v.kind

end ParamKind

structure ParamSpec where
  kind : ParamKind
  optional : Bool := false
  plural : Bool := false
  deriving DecidableEq

def ParamSpec.display (p : ParamSpec) : String :=
  p.kind.name ++
    match p.optional, p.plural with
    | true, true => "*"
    | false, true => "+"
    | true, false => "?"
    | false, false => ""

structure TagSpec where
  name : String
  options : List String
  default : String
  deriving DecidableEq

structure ActionSchema where
  block : String
  name : String
  params : List ParamSpec := []
  tags : List TagSpec := []
  deriving DecidableEq

inductive SchemaFault where
  | pluralNotLast (position : Nat)
  | requiredAfterOptional (position : Nat)
  | duplicateTag (tag : String)
  | defaultNotOption (tag default : String)
  deriving DecidableEq

def SchemaFault.reason : SchemaFault → String
  | .pluralNotLast p => "plural parameter at position " ++ toString p ++ " is not last"
  | .requiredAfterOptional p =>
    "required parameter at position " ++ toString p ++ " follows an optional one"
  | .duplicateTag tag => "duplicate tag '" ++ tag ++ "'"
  | .defaultNotOption tag default =>
    "default '" ++ default ++ "' of tag '" ++ tag ++ "' is not one of its options"

namespace ActionSchema

def signature (s : ActionSchema) : String :=
  "(" ++ Text.joinWith ", " (s.params.map (·.display)) ++ ")"

def tag? (s : ActionSchema) (name : String) : Option TagSpec :=
  s.tags.find? (·.name == name)

def checkParams : Nat → Bool → List ParamSpec → Except SchemaFault Unit
  | _, _, [] => .ok ()
  | position, seenOptional, spec :: rest =>
    if spec.plural && !rest.isEmpty then .error (.pluralNotLast position)
    else if seenOptional && !spec.optional then .error (.requiredAfterOptional position)
    else checkParams (position + 1) (seenOptional || spec.optional) rest

def checkTags : List String → List TagSpec → Except SchemaFault Unit
  | _, [] => .ok ()
  | seen, tag :: rest =>
    if seen.contains tag.name then .error (.duplicateTag tag.name)
    else if !tag.options.contains tag.default then .error (.defaultNotOption tag.name tag.default)
    else checkTags (tag.name :: seen) rest

/-- A plural parameter comes last, required ones come before optional ones, tag names differ and
each default is one of its options. -/
def check (s : ActionSchema) : Except SchemaFault Unit := do
  checkParams 0 false s.params
  checkTags [] s.tags

end ActionSchema
end BlockTemplate
