import BlockTemplate.Decimal.Layout
import BlockTemplate.Text.Basic
import BlockTemplate.Text.Quoted
import BlockTemplate.Value.Basic

/-! Values as listings show them. -/
namespace BlockTemplate

open Decimal (unsignedZero)
open Text (quoted joinWith)

def withField (label : String) (text : Option String) : String :=
  match text with
  | none => ""
  | some t => ", " ++ label ++ ": " ++ t

def Location.display (l : Location) : String :=
  "loc(" ++ unsignedZero l.x ++ ", " ++ unsignedZero l.y ++ ", " ++ unsignedZero l.z ++
    withField "pitch" (l.pitch.map unsignedZero) ++ withField "yaw" (l.yaw.map unsignedZero) ++
    withField "world" (l.world.map quoted) ++ ")"

def Vector3.display (v : Vector3) : String :=
  "vec(" ++ unsignedZero v.x ++ ", " ++ unsignedZero v.y ++ ", " ++ unsignedZero v.z ++ ")"

def Item.display (i : Item) : String :=
  "item(" ++ quoted i.material ++
    withField "count" (if i.count = 1 then none else some (toString i.count)) ++
    withField "name" (i.name.map quoted) ++ ")"

def Sound.display (s : Sound) : String :=
  "sound(" ++ quoted s.name ++ withField "pitch" (some (unsignedZero s.pitch)) ++
    withField "volume" (some (unsignedZero s.volume)) ++ ")"

def Potion.display (p : Potion) : String :=
  "potion(" ++ quoted p.effect ++ withField "amplifier" (some (toString p.amplifier)) ++
    withField "duration" (some (toString p.duration)) ++ ")"

def GameValue.display (g : GameValue) : String :=
  "gval(" ++ quoted g.kind ++ " @" ++ g.target.name ++ ")"

def VarRef.display (v : VarRef) : String := "var(" ++ v.scope.word ++ " " ++ v.name ++ ")"

namespace Value

mutual

def display : Value → String
  | .text s => quoted s
  | .number x => unsignedZero x
  | .location l => l.display
  | .vector v => v.display
  | .item i => i.display
  | .sound s => s.display
  | .potion p => p.display
  | .particle name => "particle(" ++ quoted name ++ ")"
  | .gameValue g => g.display
  | .variable v => v.display
  | .list items => "[" ++ joinWith ", " (displayList items) ++ "]"
  | .dict entries => "\x7b" ++ joinWith ", " (displayEntries entries) ++ "\x7d"

def displayList : List Value → List String
  | [] => []
  | v :: rest => v.display :: displayList rest

def displayEntries : List (String × Value) → List String
  | [] => []
  | (key, v) :: rest => (quoted key ++ ": " ++ v.display) :: displayEntries rest

end

end Value
end BlockTemplate
