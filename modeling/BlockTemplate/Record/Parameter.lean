/-! Parameter records: what the slots of a code block hold. -/
namespace BlockTemplate

structure Position where
  x : Float
  y : Float
  z : Float
  pitch : Float
  yaw : Float
  deriving BEq

inductive Parameter where
  | text (name : String)
  | number (name : String)
  | location (isBlock : Bool) (position : Position) (world : Option String)
  | vector (x y z : Float)
  | item (tags : String)
  | sound (name : String) (pitch volume : Float)
  | potion (effect : String) (duration amplifier : Nat)
  | particle (name : String)
  | variable (name scope : String)
  | gameValue (kind target : String)
  | tag (option tag action block : String)
  | list (items : List Parameter)
  | dict (entries : List (String × Parameter))
  deriving BEq

end BlockTemplate
