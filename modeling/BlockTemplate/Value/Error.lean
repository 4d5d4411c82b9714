import BlockTemplate.Decimal.Layout

/-! Why a value is refused. -/
namespace BlockTemplate

inductive ValueError where
  | nonFinite (field : String)
  | outOfRange (field : String) (value min max : Float)
  | empty (field : String)
  | tooMany (field : String) (count max : Nat)
  | tooLong (field : String) (length max : Nat)
  | malformed (field reason : String)
  | duplicateKey (key : String)
  deriving DecidableEq

def ValueError.message : ValueError → String
  | .nonFinite field => field ++ " must be a finite number"
  | .outOfRange field value min max =>
    field ++ " is " ++ Decimal.plain value ++ ", expected " ++ Decimal.plain min ++ " to " ++
      Decimal.plain max
  | .empty field => field ++ " must not be empty"
  | .tooMany field count max =>
    field ++ " has " ++ toString count ++ " entries, at most " ++ toString max ++ " allowed"
  | .tooLong field length max =>
    field ++ " is " ++ toString length ++ " characters long, at most " ++ toString max ++
      " allowed"
  | .malformed field reason => field ++ ": " ++ reason
  | .duplicateKey key => "duplicate dict key '" ++ key ++ "'"

namespace ValueError

def requireFinite (field : String) (x : Float) : Except ValueError Unit :=
  if x.isFinite then .ok () else .error (.nonFinite field)

def requireRange (field : String) (x min max : Float) : Except ValueError Unit := do
  requireFinite field x
  if x < min ∨ max < x then .error (.outOfRange field x min max) else .ok ()

def requireNatRange (field : String) (n min max : Nat) : Except ValueError Unit :=
  if n < min ∨ max < n then
    .error (.outOfRange field (Float.ofNat n) (Float.ofNat min) (Float.ofNat max))
  else .ok ()

def requireText (field : String) (s : String) : Except ValueError Unit :=
  if s = "" then .error (.empty field) else .ok ()

end ValueError
end BlockTemplate
