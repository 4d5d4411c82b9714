import BlockTemplate.Json.Printer
import BlockTemplate.Record.Document

/-! Records as JSON data. Fields come in a fixed order, absent ones are left out. -/
namespace BlockTemplate
open Json

def tagged (id : String) (data : List (String × Data)) : Data :=
  .object [("id", .text id), ("data", .object data)]

def optionalField (key : String) : Option String → List (String × Data)
  | some s => [(key, .text s)]
  | none => []

def Position.toData (p : Position) : Data :=
  .object [("x", .real p.x), ("y", .real p.y), ("z", .real p.z), ("pitch", .real p.pitch),
    ("yaw", .real p.yaw)]

mutual

def Parameter.toData : Parameter → Data
  | .text name => tagged "txt" [("name", .text name)]
  | .number name => tagged "num" [("name", .text name)]
  | .location isBlock position world =>
    tagged "loc" ([("isBlock", .bool isBlock), ("loc", position.toData)] ++
      optionalField "world" world)
  | .vector x y z => tagged "vec" [("x", .real x), ("y", .real y), ("z", .real z)]
  | .item tags => tagged "item" [("item", .text tags)]
  | .sound name pitch volume =>
    tagged "snd" [("sound", .text name), ("pitch", .real pitch), ("vol", .real volume)]
  | .potion effect duration amplifier =>
    tagged "pot" [("pot", .text effect), ("dur", .integer duration), ("amp", .integer amplifier)]
  | .particle name => tagged "part" [("particle", .text name)]
  | .variable name scope => tagged "var" [("name", .text name), ("scope", .text scope)]
  | .gameValue kind target => tagged "g_val" [("type", .text kind), ("target", .text target)]
  | .tag option tag action block =>
    tagged "bl_tag" [("option", .text option), ("tag", .text tag), ("action", .text action),
      ("block", .text block)]
  | .list items => tagged "list" [("values", .array (parametersToData items))]
  | .dict entries => tagged "dict" [("entries", .array (entriesToData entries))]

def parametersToData : List Parameter → List Data
  | [] => []
  | p :: rest => p.toData :: parametersToData rest

def entriesToData : List (String × Parameter) → List Data
  | [] => []
  | (key, p) :: rest => .object [("key", .text key), ("value", p.toData)] :: entriesToData rest

end

def Slot.toData (s : Slot) : Data :=
  .object [("item", s.item.toData), ("slot", .integer s.slot)]

def CodeBlock.toData (b : CodeBlock) : Data :=
  .object ([("id", .text "block"), ("block", .text b.block),
      ("args", .object [("items", .array (b.items.map Slot.toData))])] ++
    optionalField "action" b.action ++ optionalField "subAction" b.subAction ++
    optionalField "data" b.data ++ optionalField "target" b.target ++
    optionalField "inverted" b.inverted)

def Record.toData : Record → Data
  | .block b => b.toData
  | .bracket side type =>
    .object [("id", .text "bracket"), ("direct", .text side.word), ("type", .text type.word)]

def Document.toData (d : Document) : Data :=
  .object [("blocks", .array (d.blocks.map Record.toData))]

def Document.render (style : Style) (d : Document) : String := d.toData.render style

end BlockTemplate
