import BlockTemplate.Settings.Basic
import BlockTemplate.Toml.Fields

/-! Settings from TOML. What is not given has its default. -/
namespace BlockTemplate
open Toml (maybe?)
open Toml.Value (natBelow? float? bool? text?)

def Limits.ofToml? (v : Toml.Value) : Option Limits := do
  let [maxParameters, maxFunctionNameLength, maxLoreLines, maxStackSize, coordinateBound,
    translateColors] ← v.fields? ["max_parameters", "max_function_name_length", "max_lore_lines",
      "max_stack_size", "coordinate_bound", "translate_color_codes"] 0 | none
  let default : Limits := {}
  return {
    maxParameters := (← maybe? (natBelow? UInt64.size) maxParameters).getD default.maxParameters
    maxFunctionNameLength :=
      (← maybe? (natBelow? UInt64.size) maxFunctionNameLength).getD default.maxFunctionNameLength
    maxLoreLines := (← maybe? (natBelow? UInt64.size) maxLoreLines).getD default.maxLoreLines
    maxStackSize := (← maybe? (natBelow? UInt32.size) maxStackSize).getD default.maxStackSize
    coordinateBound := (← maybe? float? coordinateBound).getD default.coordinateBound
    translateColors := (← maybe? bool? translateColors).getD default.translateColors }

def Settings.withTemplate? (s : Settings) (v : Toml.Value) : Option Settings := do
  let [author, formatVersion, maxCodeLength, compressionLevel] ←
    v.fields? ["author", "format_version", "max_code_length", "compression_level"] 4 | none
  return { s with
    author := (← maybe? text? author).getD s.author
    formatVersion := (← maybe? (natBelow? UInt32.size) formatVersion).getD s.formatVersion
    maxCodeLength := ← maybe? (natBelow? UInt64.size) maxCodeLength
    compressionLevel :=
      (← maybe? (natBelow? UInt32.size) compressionLevel).getD s.compressionLevel }

def Settings.ofToml? (v : Toml.Value) : Option Settings := do
  let [template, limits] ← v.fields? ["template", "limits"] 0 | none
  let default : Settings := {}
  let settings := (← maybe? default.withTemplate? template).getD default
  return { settings with limits := (← maybe? Limits.ofToml? limits).getD settings.limits }

inductive SettingsError where
  | unreadable
  | invalid (fault : SettingsFault)
  deriving DecidableEq

def Settings.parse (s : String) : Except SettingsError Settings := do
  match (Toml.parse? s).bind Settings.ofToml? with
  | none => throw .unreadable
  | some settings =>
    match settings.check with
    | .ok () => return settings
    | .error fault => throw (.invalid fault)

end BlockTemplate
