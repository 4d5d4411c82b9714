import BlockTemplate.Target

/-! The kinds of code blocks, by the id each has in a document. -/
namespace BlockTemplate

inductive BlockCategory where
  | event | entityEvent | playerAction | entityAction | gameAction | control
  | setVariable | selectObject | callFunction | startProcess
  deriving DecidableEq

namespace BlockCategory

def all : List BlockCategory :=
  [.event, .entityEvent, .playerAction, .entityAction, .gameAction, .control,
   .setVariable, .selectObject, .callFunction, .startProcess]

def id : BlockCategory → String
  | .event => "event"
  | .entityEvent => "entity_event"
  | .playerAction => "player_action"
  | .entityAction => "entity_action"
  | .gameAction => "game_action"
  | .control => "control"
  | .setVariable => "set_var"
  | .selectObject => "select_obj"
  | .callFunction => "call_func"
  | .startProcess => "start_process"

def ofId? (s : String) : Option BlockCategory := all.find? (·.id == s)

def isEvent : BlockCategory → Bool
  | .event | .entityEvent => true
  | _ => false

def isCall : BlockCategory → Bool
  | .callFunction | .startProcess => true
  | _ => false

def side? : BlockCategory → Option Side
  | .playerAction => some .player
  | .entityAction => some .entity
  | _ => none

end BlockCategory

inductive ConditionCategory where
  | player | entity | game | variable
  deriving DecidableEq

namespace ConditionCategory

def all : List ConditionCategory := [.player, .entity, .game, .variable]

def id : ConditionCategory → String
  | .player => "if_player"
  | .entity => "if_entity"
  | .game => "if_game"
  | .variable => "if_var"

def ofId? (s : String) : Option ConditionCategory := all.find? (·.id == s)

def side? : ConditionCategory → Option Side
  | .player => some .player
  | .entity => some .entity
  | _ => none

end ConditionCategory

def functionBlock : String := "func"
def processBlock : String := "process"
def repeatBlock : String := "repeat"
def elseBlock : String := "else"

/-- The action under which the schema of a definition block is found. -/
def definitionAction : String := "dynamic"

end BlockTemplate
