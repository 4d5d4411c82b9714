import BlockTemplate.Script.Error
import BlockTemplate.Script.Statement
import BlockTemplate.Session.Basic

/-! Values written as calls, such as a location or an item. -/
namespace BlockTemplate.Script

/-- A call with its positional and its named arguments apart. -/
structure Constructor where
  head : Name
  span : Span
  positional : List Expr
  named : List (Name × Expr)

def positionalArgs : List (Option Name × Expr) → List Expr
  | [] => []
  | (none, e) :: rest => e :: positionalArgs rest
  | (some _, _) :: rest => positionalArgs rest

def namedArgs : List (Option Name × Expr) → List (Name × Expr)
  | [] => []
  | (none, _) :: rest => namedArgs rest
  | (some name, e) :: rest => (name, e) :: namedArgs rest

namespace Expr

def toNumber : Expr → Except Failure Float
  | .number x _ => .ok x
  | e => .error (.meaningless .notNumber e.span)

/-- A whole number from zero up that fits into 32 bits. -/
def toWhole (e : Expr) : Except Failure Nat := do
  let x ← e.toNumber
  match Decimal.wholeAbs? x with
  | some n =>
    if x < 0.0 ∨ UInt32.size ≤ n then throw (.meaningless (.notWhole x) e.span) else return n
  | none => throw (.meaningless (.notWhole x) e.span)

def toText : Expr → Except Failure String
  | .text s _ => .ok s
  | e => .error (.meaningless .notText e.span)

def toName : Expr → Except Failure String
  | .text s _ | .ident s _ => .ok s
  | e => .error (.meaningless .notName e.span)

def toFlag : Expr → Except Failure Bool
  | .ident "true" _ => .ok true
  | .ident "false" _ => .ok false
  | e => .error (.meaningless .notFlag e.span)

def toTexts : Expr → Except Failure (List String)
  | .list items _ => items.mapM toText
  | e => do return [← e.toText]

def toEnchantments : Expr → Except Failure (List Enchantment)
  | .dict entries _ => entries.mapM fun (id, level) => do return ⟨id.item, ← level.toWhole⟩
  | e => .error (.meaningless .notEnchantments e.span)

def toTarget (e : Expr) : Except Failure Target := do
  let name ← e.toName
  match Target.ofName? name with
  | some t => return t
  | none => throw (.meaningless (.unknownValueTarget name) e.span)

end Expr

namespace Constructor

def wrongCount {α : Type} (c : Constructor) (wanted : Nat) : Except Failure α :=
  .error (.meaningless (.wrongCount c.head.item wanted c.positional.length) c.span)

def checkNames (c : Constructor) (allowed : List String) :
    List String → List (Name × Expr) → Except Failure Unit
  | _, [] => .ok ()
  | seen, (key, _) :: rest =>
    if !allowed.contains key.item then
      .error (.meaningless (.unknownArgument c.head.item key.item) key.span)
    else if seen.contains key.item then
      .error (.meaningless (.repeatedArgument key.item) key.span)
    else checkNames c allowed (key.item :: seen) rest

def checkNamed (c : Constructor) (allowed : List String) : Except Failure Unit :=
  c.checkNames allowed [] c.named

def named? {α : Type} (c : Constructor) (key : String) (read : Expr → Except Failure α) :
    Except Failure (Option α) :=
  match c.named.find? (·.1.item == key) with
  | some (_, e) => some <$> read e
  | none => .ok none

def varRef (c : Constructor) (s : Session) : Except Failure Value :=
  match c.positional with
  | [e] => do
    c.checkNamed []
    match s.resolve (← e.toName) with
    | .ok v => return v
    | .error error => throw (.compile error (some c.span))
  | _ => c.wrongCount 1

def location (c : Constructor) : Except Failure Value :=
  match c.positional with
  | [x, y, z] => do
    c.checkNamed ["pitch", "yaw", "world", "block"]
    let x ← x.toNumber
    let y ← y.toNumber
    let z ← z.toNumber
    let pitch ← c.named? "pitch" Expr.toNumber
    let yaw ← c.named? "yaw" Expr.toNumber
    let world ← c.named? "world" Expr.toText
    let block ← c.named? "block" Expr.toFlag
    return .location { x, y, z, pitch, yaw, world, isBlock := block.getD false }
  | _ => c.wrongCount 3

def vector (c : Constructor) : Except Failure Value :=
  match c.positional with
  | [x, y, z] => do
    c.checkNamed []
    let x ← x.toNumber
    let y ← y.toNumber
    let z ← z.toNumber
    return .vector { x, y, z }
  | _ => c.wrongCount 3

def item (c : Constructor) : Except Failure Value :=
  match c.positional with
  | [e] => do
    c.checkNamed ["count", "name", "lore", "damage", "unbreakable", "enchant", "nbt"]
    let material ← e.toText
    let count ← c.named? "count" Expr.toWhole
    let name ← c.named? "name" Expr.toText
    let lore ← c.named? "lore" Expr.toTexts
    let damage ← c.named? "damage" Expr.toWhole
    let unbreakable ← c.named? "unbreakable" Expr.toFlag
    let enchantments ← c.named? "enchant" Expr.toEnchantments
    let nbt ← c.named? "nbt" Expr.toText
    return .item {
      material
      count := count.getD 1
      name
      lore := lore.getD []
      damage := damage.getD 0
      unbreakable := unbreakable.getD false
      enchantments := enchantments.getD []
      nbt }
  | _ => c.wrongCount 1

def sound (c : Constructor) : Except Failure Value :=
  match c.positional with
  | [e] => do
    c.checkNamed ["pitch", "volume"]
    let name ← e.toText
    let pitch ← c.named? "pitch" Expr.toNumber
    let volume ← c.named? "volume" Expr.toNumber
    return .sound { name, pitch := pitch.getD 1.0, volume := volume.getD 2.0 }
  | _ => c.wrongCount 1

def potion (c : Constructor) : Except Failure Value :=
  match c.positional with
  | [e] => do
    c.checkNamed ["amplifier", "duration"]
    let effect ← e.toText
    let amplifier ← c.named? "amplifier" Expr.toWhole
    let duration ← c.named? "duration" Expr.toWhole
    return .potion {
      effect
      amplifier := amplifier.getD 0
      duration := duration.getD Potion.maxDuration }
  | _ => c.wrongCount 1

def particle (c : Constructor) : Except Failure Value :=
  match c.positional with
  | [e] => do
    c.checkNamed []
    return .particle (← e.toText)
  | _ => c.wrongCount 1

def gameValue (c : Constructor) : Except Failure Value :=
  match c.positional with
  | [e] => do
    c.checkNamed ["target"]
    let kind ← e.toText
    let target ← c.named? "target" Expr.toTarget
    return .gameValue { kind, target := target.getD .default }
  | _ => c.wrongCount 1

def value (c : Constructor) (s : Session) : Except Failure Value :=
  match c.head.item with
  | "var" => c.varRef s
  | "loc" => c.location
  | "vec" => c.vector
  | "item" => c.item
  | "sound" => c.sound
  | "potion" => c.potion
  | "particle" => c.particle
  | "gval" => c.gameValue
  | other => .error (.meaningless (.unknownConstructor other) c.head.span)

end Constructor
end BlockTemplate.Script
