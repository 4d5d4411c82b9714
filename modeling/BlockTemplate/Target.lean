/-! Who an action or condition applies to. -/
namespace BlockTemplate

inductive Side where
  | player | entity
  deriving DecidableEq

def Side.name : Side → String
  | .player => "player"
  | .entity => "entity"

inductive Target where
  | default | selection | allPlayers | damager | shooter | killer | victim
  | allEntities | allMobs | lastEntity | lastMob | projectile
  deriving DecidableEq

namespace Target

def all : List Target :=
  [.default, .selection, .allPlayers, .damager, .shooter, .killer, .victim,
   .allEntities, .allMobs, .lastEntity, .lastMob, .projectile]

def name : Target → String
  | .default => "Default"
  | .selection => "Selection"
  | .allPlayers => "AllPlayers"
  | .damager => "Damager"
  | .shooter => "Shooter"
  | .killer => "Killer"
  | .victim => "Victim"
  | .allEntities => "AllEntities"
  | .allMobs => "AllMobs"
  | .lastEntity => "LastEntity"
  | .lastMob => "LastMob"
  | .projectile => "Projectile"

def ofName? (s : String) : Option Target := all.find? (·.name == s)

def allowedOn : Target → Side → Bool
  | .default, _ | .selection, _ | .killer, _ | .victim, _ => true
  | .allPlayers, side | .damager, side | .shooter, side => side = .player
  | .allEntities, side | .allMobs, side | .lastEntity, side | .lastMob, side
  | .projectile, side => side = .entity

end Target
end BlockTemplate
