import BlockTemplate.Json.Fields
import BlockTemplate.Json.Parser
import BlockTemplate.Record.Write

/-! Reading records from JSON. -/
namespace BlockTemplate
open Json

def BracketSide.ofWord? (s : String) : Option BracketSide :=
  [opening, closing].find? (·.word == s)

def BracketType.ofWord? (s : String) : Option BracketType :=
  [normal, repeating].find? (·.word == s)

def Position.ofData? (d : Data) : Option Position := do
  match ← d.fields? ["x", "y", "z", "pitch", "yaw"] with
  | [some x, some y, some z, some pitch, some yaw] =>
    return ⟨← x.float?, ← y.float?, ← z.float?, ← pitch.float?, ← yaw.float?⟩
  | _ => none

def leaf? (id : String) (fields : List (String × Data)) : Option Parameter := do
  match id with
  | "txt" =>
    let [name] ← required? ["name"] fields | none
    return .text (← name.text?)
  | "num" =>
    let [name] ← required? ["name"] fields | none
    return .number (← name.text?)
  | "loc" =>
    let [isBlock, loc] ← required? ["isBlock", "loc"] fields | none
    let [world] ← objectValues? ["world"] fields | none
    return .location (← isBlock.bool?) (← Position.ofData? loc) (← optionalText? world)
  | "vec" =>
    let [x, y, z] ← required? ["x", "y", "z"] fields | none
    return .vector (← x.float?) (← y.float?) (← z.float?)
  | "item" =>
    let [item] ← required? ["item"] fields | none
    return .item (← item.text?)
  | "snd" =>
    let [sound, pitch, volume] ← required? ["sound", "pitch", "vol"] fields | none
    return .sound (← sound.text?) (← pitch.float?) (← volume.float?)
  | "pot" =>
    let [effect, duration, amplifier] ← required? ["pot", "dur", "amp"] fields | none
    return .potion (← effect.text?) (← duration.natBelow? UInt32.size)
      (← amplifier.natBelow? UInt32.size)
  | "part" =>
    let [particle] ← required? ["particle"] fields | none
    return .particle (← particle.text?)
  | "var" =>
    let [name, scope] ← required? ["name", "scope"] fields | none
    return .variable (← name.text?) (← scope.text?)
  | "g_val" =>
    let [kind, target] ← required? ["type", "target"] fields | none
    return .gameValue (← kind.text?) (← target.text?)
  | "bl_tag" =>
    let [option, tag, action, block] ← required? ["option", "tag", "action", "block"] fields
      | none
    return .tag (← option.text?) (← tag.text?) (← action.text?) (← block.text?)
  | _ => none

def readingDepth : Nat := 127

/-- The parameter of a record that nests fewer lists and dictionaries than the number given. -/
def Parameter.ofData? : Nat → Data → Option Parameter
  | 0, _ => none
  | n + 1, d => do
    let [some id, some (.object fields)] ← d.fields? ["id", "data"] | none
    match ← id.word? with
    | "list" =>
      let [values] ← required? ["values"] fields | none
      return .list (← (← values.array?).mapM (ofData? n))
    | "dict" =>
      let [entries] ← required? ["entries"] fields | none
      return .dict (← (← entries.array?).mapM (keyed? (ofData? n)))
    | id => leaf? id fields
where
  keyed? (value? : Data → Option Parameter) (d : Data) : Option (String × Parameter) := do
    let [some key, some value] ← d.fields? ["key", "value"] | none
    return (← key.text?, ← value? value)

def Slot.ofData? (d : Data) : Option Slot := do
  let [some item, some slot] ← d.fields? ["item", "slot"] | none
  return ⟨← Parameter.ofData? readingDepth item, ← slot.natBelow? UInt64.size⟩

def slots? : Option Data → Option (List Slot)
  | none => some []
  | some d => do
    let [some items] ← d.fields? ["items"] | none
    (← items.array?).mapM Slot.ofData?

def CodeBlock.ofData? (d : Data) : Option CodeBlock := do
  let [some block, args, action, subAction, data, target, inverted] ← d.fields?
    ["block", "args", "action", "subAction", "data", "target", "inverted"] | none
  return {
    block := ← block.text?
    items := ← slots? args
    action := ← optionalText? action
    subAction := ← optionalText? subAction
    data := ← optionalText? data
    target := ← optionalText? target
    inverted := ← optionalText? inverted }

def splitTag? : Data → Option (String × Data)
  | .object fields =>
    match fieldsNamed "id" fields with
    | [.text tag] => some (tag, .object (fields.filter (·.1 != "id")))
    | _ => none
  | .array (.text tag :: rest) => some (tag, .array rest)
  | _ => none

def Record.ofData? (d : Data) : Option Record := do
  match ← splitTag? d with
  | ("block", rest) => return .block (← CodeBlock.ofData? rest)
  | ("bracket", rest) =>
    let [some side, some type] ← rest.fields? ["direct", "type"] | none
    return .bracket (← BracketSide.ofWord? (← side.word?)) (← BracketType.ofWord? (← type.word?))
  | _ => none

def termsNamed? (name : String) : List (List Char × Term) → Option (List Term)
  | [] => some []
  | (key, t) :: rest => do
    let key ← unescape? key
    let others ← termsNamed? name rest
    return if String.ofList key == name then t :: others else others

/-- The blocks of a document. Its other fields denote nothing and need not. -/
def blocks? : Term → Option Term
  | .object fields =>
    match termsNamed? "blocks" fields with
    | some [t] => some t
    | _ => none
  | .array [t] => some t
  | _ => none

def Document.ofTerm? (t : Term) : Option Document := do
  let blocks ← (← blocks? t).toData? (readingDepth - 1)
  return ⟨← (← blocks.array?).mapM Record.ofData?⟩

def Document.parse? (s : String) : Option Document := do
  Document.ofTerm? (← Term.parse? s.toList)

def Parameter.parse? (s : String) : Option Parameter := do
  Parameter.ofData? readingDepth (← (← Term.parse? s.toList).toData? readingDepth)

end BlockTemplate
