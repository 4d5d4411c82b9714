import BlockTemplate.Schema.Table
import BlockTemplate.Toml.Fields

/-! Schema tables from TOML. -/
namespace BlockTemplate
open Toml (maybe?)
open Toml.Value (bool? text? list?)

def ParamSpec.ofToml? (v : Toml.Value) : Option ParamSpec := do
  let [some kind, optional, plural] ← v.fields? ["kind", "optional", "plural"] 1 | none
  return {
    kind := ← ParamKind.ofName? (← kind.word?)
    optional := (← maybe? bool? optional).getD false
    plural := (← maybe? bool? plural).getD false }

def TagSpec.ofToml? (v : Toml.Value) : Option TagSpec := do
  let [some name, some options, some default] ← v.fields? ["name", "options", "default"] 3 | none
  return { name := ← name.text?, options := ← options.list? text?, default := ← default.text? }

def ActionSchema.ofToml? (v : Toml.Value) : Option ActionSchema := do
  let [some block, some name, params, tags] ← v.fields? ["block", "name", "params", "tags"] 2
    | none
  return {
    block := ← block.text?
    name := ← name.text?
    params := (← maybe? (list? ParamSpec.ofToml?) params).getD []
    tags := (← maybe? (list? TagSpec.ofToml?) tags).getD [] }

def schemasOfToml? (v : Toml.Value) : Option (List ActionSchema) := do
  let [actions] ← v.fields? ["action"] 0 | none
  return (← maybe? (list? ActionSchema.ofToml?) actions).getD []

inductive SchemaError where
  | unreadable
  | invalid (e : InvalidSchema)
  deriving DecidableEq

/-- The table that a text gives, later schemas over earlier ones. -/
def SchemaTable.parse (s : String) : Except SchemaError SchemaTable := do
  match (Toml.parse? s).bind schemasOfToml? with
  | none => throw .unreadable
  | some schemas =>
    match SchemaTable.empty.insertAll schemas with
    | .ok table => return table
    | .error e => throw (.invalid e)

end BlockTemplate
