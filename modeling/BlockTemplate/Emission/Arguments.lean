import BlockTemplate.Error
import BlockTemplate.Limits
import BlockTemplate.Record.Document
import BlockTemplate.Value.Encode

/-! Values and tags put into the slots of a code block. Parameters fill the slots from the first
on, tags the last ones. -/
namespace BlockTemplate

inductive ArgumentError where
  | fault (f : ArgumentFault)
  | value (e : ValueError)

/-- Lists are taken apart, one level, unless lists are asked for. -/
def spread (spec : ParamSpec) : List Value → List Value
  | [] => []
  | .list items :: rest =>
    if spec.kind = .list then .list items :: spread spec rest else items ++ spread spec rest
  | v :: rest => v :: spread spec rest

def place (limits : Limits) (room : Nat) (spec : ParamSpec) (position slot : Nat) (v : Value) :
    Except ArgumentError Slot :=
  if !spec.kind.accepts v then .error (.fault (.wrongKind position v.kind spec))
  else if room ≤ slot then .error (.fault (.slotsUsedUp room))
  else
    match v.encode limits with
    | .ok p => .ok ⟨p, slot⟩
    | .error e => .error (.value e)

def placeAll (limits : Limits) (room : Nat) (spec : ParamSpec) (position : Nat) :
    Nat → List Value → Except ArgumentError (List Slot)
  | _, [] => .ok []
  | slot, v :: rest => do
    let first ← place limits room spec position slot v
    return first :: (← placeAll limits room spec position (slot + 1) rest)

/-- The values of the specs from a position on. Values are left over only if each spec before
took one. -/
def placeParams (limits : Limits) (room : Nat) :
    Nat → Nat → List ParamSpec → List Value → Except ArgumentError (List Slot)
  | _, _, [], [] => .ok []
  | position, _, [], v :: _ => .error (.fault (.unexpected v.kind position position))
  | position, slot, spec :: specs, values =>
    if spec.plural then do
      let given ← placeAll limits room spec position slot (spread spec values)
      if given.isEmpty && !spec.optional then throw (.fault (.missing position spec))
      return given ++ (← placeParams limits room (position + 1) (slot + given.length) specs [])
    else
      match values with
      | [] =>
        if spec.optional then placeParams limits room (position + 1) slot specs []
        else .error (.fault (.missing position spec))
      | v :: rest => do
        let first ← place limits room spec position slot v
        return first :: (← placeParams limits room (position + 1) (slot + 1) specs rest)

def checkChoices (schema : ActionSchema) : TagChoices → Except ArgumentError Unit
  | [] => .ok ()
  | (tag, option) :: rest =>
    match schema.tag? tag with
    | none => .error (.fault (.unknownTag tag))
    | some spec =>
      if spec.options.contains option then checkChoices schema rest
      else .error (.fault (.notAnOption tag option spec.options))

def checkRepeats (seen : List String) : TagChoices → Except ArgumentError Unit
  | [] => .ok ()
  | (tag, _) :: rest =>
    if seen.contains tag then .error (.fault (.tagTwice tag))
    else checkRepeats (tag :: seen) rest

def chosenOption (choices : TagChoices) (tag : TagSpec) : String :=
  match choices.find? (·.1 == tag.name) with
  | some (_, option) => option
  | none => tag.default

structure Site where
  index : Nat
  block : String
  action : String

def tagSlots (site : Site) (choices : TagChoices) : Nat → List TagSpec → List Slot
  | _, [] => []
  | slot, tag :: rest =>
    ⟨.tag (chosenOption choices tag) tag.name site.action site.block, slot⟩ ::
      tagSlots site choices (slot + 1) rest

def arguments (site : Site) (limits : Limits) (schema : ActionSchema) (values : List Value)
    (choices : TagChoices) : Except ArgumentError (List Slot) := do
  let room := limits.maxParameters - schema.tags.length
  let params ← placeParams limits room 0 0 schema.params values
  checkChoices schema choices
  checkRepeats [] choices
  return params ++ tagSlots site choices room schema.tags

end BlockTemplate
