import BlockTemplate.Schema.Table

/-! The schemas that every compilation knows. -/
namespace BlockTemplate.Schema.Builtin

def one (kind : ParamKind) : ParamSpec := { kind }
def maybe (kind : ParamKind) : ParamSpec := { kind, optional := true }
def many (kind : ParamKind) : ParamSpec := { kind, plural := true }
def several (kind : ParamKind) : ParamSpec := { kind, optional := true, plural := true }

def tag (name : String) (options : List String) (default : String) : TagSpec :=
  { name, options, default }

def schemas : List ActionSchema := [
  { block := "event", name := "Join" },
  { block := "event", name := "Leave" },
  { block := "event", name := "Command" },
  { block := "event", name := "RightClick" },
  { block := "event", name := "LeftClick" },
  { block := "event", name := "Sneak" },
  { block := "event", name := "Jump" },
  { block := "event", name := "Walk" },
  { block := "event", name := "Death" },
  { block := "event", name := "Respawn" },
  { block := "event", name := "PlayerTakeDmg" },
  { block := "event", name := "KillPlayer" },
  { block := "event", name := "BreakBlock" },
  { block := "event", name := "PlaceBlock" },
  { block := "event", name := "SwapHands" },
  { block := "entity_event", name := "EntityDmgEntity" },
  { block := "entity_event", name := "EntityDeath" },
  { block := "entity_event", name := "ProjHit" },
  { block := "player_action", name := "SendMessage"
    params := [several .any]
    tags := [tag "Alignment Mode" ["Regular", "Centered"] "Regular",
      tag "Text Value Merging" ["Add spaces", "No spaces"] "Add spaces"] },
  { block := "player_action", name := "ActionBar"
    params := [several .any]
    tags := [tag "Text Value Merging" ["Add spaces", "No spaces"] "Add spaces"] },
  { block := "player_action", name := "SendTitle"
    params := [one .text, maybe .text, maybe .number, maybe .number, maybe .number] },
  { block := "player_action", name := "GiveItems"
    params := [many .item] },
  { block := "player_action", name := "SetHotbar"
    params := [several .item] },
  { block := "player_action", name := "ClearInv"
    tags := [tag "Clear Crafting and Cursor" ["True", "False"] "True"] },
  { block := "player_action", name := "Teleport"
    params := [one .location]
    tags := [tag "Keep Current Rotation" ["False", "True"] "False"] },
  { block := "player_action", name := "PlaySound"
    params := [one .sound, maybe .location]
    tags := [tag "Sound Source" ["Master", "Music", "Weather", "Players", "Ambient"] "Master"] },
  { block := "player_action", name := "ParticleEffect"
    params := [one .particle, several .location] },
  { block := "player_action", name := "GivePotion"
    params := [many .potion]
    tags := [tag "Overwrite Effect" ["False", "True"] "False"] },
  { block := "player_action", name := "Heal"
    params := [maybe .number] },
  { block := "player_action", name := "SetHealth"
    params := [one .number] },
  { block := "player_action", name := "Damage"
    params := [one .number] },
  { block := "player_action", name := "LaunchUp"
    params := [one .number] },
  { block := "player_action", name := "SetVelocity"
    params := [one .vector]
    tags := [tag "Add to Current Velocity" ["False", "True"] "False"] },
  { block := "entity_action", name := "Heal"
    params := [maybe .number] },
  { block := "entity_action", name := "Teleport"
    params := [one .location] },
  { block := "entity_action", name := "SetName"
    params := [one .text] },
  { block := "entity_action", name := "Remove" },
  { block := "game_action", name := "CancelEvent" },
  { block := "game_action", name := "SetBlock"
    params := [one .item, many .location] },
  { block := "game_action", name := "SpawnItem"
    params := [one .location, many .item] },
  { block := "game_action", name := "Explosion"
    params := [one .location, maybe .number] },
  { block := "control", name := "Wait"
    params := [maybe .number]
    tags := [tag "Time Unit" ["Ticks", "Seconds", "Minutes"] "Ticks"] },
  { block := "control", name := "Return" },
  { block := "control", name := "End" },
  { block := "control", name := "Skip" },
  { block := "control", name := "StopRepeat" },
  { block := "set_var", name := "="
    params := [one .variable, one .any] },
  { block := "set_var", name := "+="
    params := [one .variable, several .number] },
  { block := "set_var", name := "-="
    params := [one .variable, several .number] },
  { block := "set_var", name := "+"
    params := [one .variable, many .number] },
  { block := "set_var", name := "-"
    params := [one .variable, many .number] },
  { block := "set_var", name := "RandomNumber"
    params := [one .variable, one .number, one .number]
    tags := [tag "Rounding Mode" ["Whole number", "Decimal number"] "Whole number"] },
  { block := "set_var", name := "String"
    params := [one .variable, several .any]
    tags := [tag "Text Value Merging" ["No spaces", "Add spaces"] "No spaces"] },
  { block := "set_var", name := "CreateList"
    params := [one .variable, several .any] },
  { block := "set_var", name := "AppendValue"
    params := [one .variable, many .any] },
  { block := "set_var", name := "CreateDict"
    params := [one .variable, maybe .list, maybe .list] },
  { block := "set_var", name := "SetDictValue"
    params := [one .variable, one .text, one .any] },
  { block := "select_obj", name := "PlayerName"
    params := [many .text] },
  { block := "select_obj", name := "Reset" },
  { block := "if_player", name := "IsSneaking" },
  { block := "if_player", name := "IsGrounded" },
  { block := "if_player", name := "NameEquals"
    params := [many .text] },
  { block := "if_player", name := "IsHolding"
    params := [several .item]
    tags := [tag "Hand Slot" ["Either hand", "Main hand", "Off hand"] "Either hand"] },
  { block := "if_player", name := "StandingOn"
    params := [many .item] },
  { block := "if_entity", name := "IsGrounded" },
  { block := "if_entity", name := "NameEquals"
    params := [many .text] },
  { block := "if_game", name := "HasPlayer"
    params := [many .text] },
  { block := "if_game", name := "BlockEquals"
    params := [one .location, many .item] },
  { block := "if_game", name := "EventCancelled" },
  { block := "if_var", name := "="
    params := [one .any, many .any] },
  { block := "if_var", name := "!="
    params := [one .any, many .any] },
  { block := "if_var", name := ">"
    params := [one .number, one .number] },
  { block := "if_var", name := "<"
    params := [one .number, one .number] },
  { block := "if_var", name := ">="
    params := [one .number, one .number] },
  { block := "if_var", name := "<="
    params := [one .number, one .number] },
  { block := "if_var", name := "VarExists"
    params := [one .variable] },
  { block := "if_var", name := "InRange"
    params := [one .number, one .number, one .number] },
  { block := "if_var", name := "ListContains"
    params := [one .variable, many .any]
    tags := [tag "Check Mode" ["Has Any Value", "Has All Values"] "Has Any Value"] },
  { block := "repeat", name := "Forever" },
  { block := "repeat", name := "Multiple"
    params := [one .number] },
  { block := "repeat", name := "While"
    params := [several .any] },
  { block := "repeat", name := "Range"
    params := [one .variable, one .number, one .number, maybe .number] },
  { block := "repeat", name := "ForEach"
    params := [one .variable, one .list] },
  { block := "func", name := "dynamic"
    params := [several .any]
    tags := [tag "Is Hidden" ["False", "True"] "False"] },
  { block := "process", name := "dynamic"
    params := [several .any]
    tags := [tag "Is Hidden" ["False", "True"] "False"] }]

def table : SchemaTable := SchemaTable.empty.putAll schemas

end BlockTemplate.Schema.Builtin
