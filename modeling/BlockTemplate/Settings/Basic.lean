import BlockTemplate.Limits

/-! Settings of a compilation. -/
namespace BlockTemplate

structure Settings where
  author : String := "Unknown"
  formatVersion : Nat := 1
  maxCodeLength : Option Nat := none
  compressionLevel : Nat := 6
  limits : Limits := {}
  deriving BEq

inductive SettingsFault where
  | compressionLevel (level : Nat)
  | noParameters
  | stackSize (size : Nat)
  | coordinateBound
  deriving DecidableEq

def SettingsFault.message : SettingsFault → String
  | .compressionLevel level =>
    "invalid config: compression_level must be 0-9, got " ++ toString level
  | .noParameters => "invalid config: max_parameters must be at least 1"
  | .stackSize size =>
    "invalid config: max_stack_size must be 1-" ++ toString largestStack ++ ", got " ++
      toString size
  | .coordinateBound => "invalid config: coordinate_bound must be positive"

def Settings.check (s : Settings) : Except SettingsFault Unit := do
  if 9 < s.compressionLevel then throw (.compressionLevel s.compressionLevel)
  if s.limits.maxParameters = 0 then throw .noParameters
  if s.limits.maxStackSize = 0 ∨ largestStack < s.limits.maxStackSize then
    throw (.stackSize s.limits.maxStackSize)
  if ¬ 0.0 < s.limits.coordinateBound then throw .coordinateBound

end BlockTemplate
