import BlockTemplate.Record.Parameter
import BlockTemplate.Value.ItemText

/-! Values checked against the limits and turned into parameter records. -/
namespace BlockTemplate

open ValueError (requireFinite requireRange requireNatRange requireText)

/-- Looks at finiteness on its own, and once more with the range. -/
def requireCoordinate (field : String) (x bound : Float) : Except ValueError Unit := do
  requireFinite field x
  requireRange field x (-bound) bound

def Location.encode (limits : Limits) (l : Location) : Except ValueError Parameter := do
  let bound := limits.coordinateBound
  requireCoordinate "location x" l.x bound
  requireCoordinate "location y" l.y bound
  requireCoordinate "location z" l.z bound
  let pitch := l.pitch.getD 0.0
  let yaw := l.yaw.getD 0.0
  requireRange "location pitch" pitch (-90.0) 90.0
  requireRange "location yaw" yaw (-180.0) 180.0
  return .location l.isBlock ⟨l.x, l.y, l.z, pitch, yaw⟩ l.world

def Vector3.encode (v : Vector3) : Except ValueError Parameter := do
  requireFinite "vector x" v.x
  requireFinite "vector y" v.y
  requireFinite "vector z" v.z
  return .vector v.x v.y v.z

def Item.encode (limits : Limits) (i : Item) : Except ValueError Parameter := do
  i.check limits
  return .item (i.tagText limits)

def maxFloat : Float := 1.7976931348623157e308

/-- Names the largest double as the upper bound, and does not look at it. -/
def requireVolume (x : Float) : Except ValueError Unit := do
  requireFinite "sound volume" x
  if x < 0.0 then .error (.outOfRange "sound volume" x 0.0 maxFloat) else .ok ()

def Sound.encode (s : Sound) : Except ValueError Parameter := do
  requireText "sound name" s.name
  requireRange "sound pitch" s.pitch 0.5 2.0
  requireVolume s.volume
  return .sound s.name s.pitch s.volume

def Potion.encode (p : Potion) : Except ValueError Parameter := do
  requireText "potion effect" p.effect
  requireNatRange "potion amplifier" p.amplifier 0 Potion.maxAmplifier
  requireNatRange "potion duration" p.duration 0 Potion.maxDuration
  return .potion p.effect p.duration p.amplifier

def GameValue.encode (g : GameValue) : Except ValueError Parameter := do
  requireText "game value type" g.kind
  return .gameValue g.kind g.target.name

def VarRef.encode (v : VarRef) : Except ValueError Parameter := do
  requireText "variable name" v.name
  return .variable v.name v.scope.documentWord

namespace Value

mutual

def encode (limits : Limits) : Value → Except ValueError Parameter
  | .text s => .ok (.text (if limits.translateColors then Text.translateColors s else s))
  | .number x => do
    requireFinite "number" x
    return .number (Decimal.unsignedZero x)
  | .location l => l.encode limits
  | .vector v => v.encode
  | .item i => i.encode limits
  | .sound s => s.encode
  | .potion p => p.encode
  | .particle name => do
    requireText "particle type" name
    return .particle name
  | .gameValue g => g.encode
  | .variable v => v.encode
  | .list items => do return .list (← encodeList limits items)
  | .dict entries => do return .dict (← encodeEntries limits [] entries)

def encodeList (limits : Limits) : List Value → Except ValueError (List Parameter)
  | [] => .ok []
  | v :: rest => do
    let first ← v.encode limits
    return first :: (← encodeList limits rest)

/-- A key met before is an error at its later entry, before that entry's value. -/
def encodeEntries (limits : Limits) (seen : List String) :
    List (String × Value) → Except ValueError (List (String × Parameter))
  | [] => .ok []
  | (key, v) :: rest => do
    if seen.contains key then throw (.duplicateKey key)
    let first ← v.encode limits
    return (key, first) :: (← encodeEntries limits (key :: seen) rest)

end

end Value
end BlockTemplate
