/-! TOML in two views: lines as they are written, and the tables that they make up. -/
namespace BlockTemplate.Toml

abbrev Path := List String

structure Date where
  year : Nat
  month : Nat
  day : Nat

structure Clock where
  hour : Nat
  minute : Nat
  second : Nat
  nanosecond : Nat

/-- A day, a time of day, or both, maybe with the minutes that it is ahead of universal time. -/
inductive Moment where
  | date (d : Date)
  | clock (t : Clock)
  | dateTime (d : Date) (t : Clock) (offset : Option Int)

inductive Term where
  | text (s : String)
  | integer (n : Int)
  | real (x : Float)
  | bool (b : Bool)
  | moment (m : Moment)
  | array (items : List Term)
  | inline (pairs : List (Path × Term))

inductive Line where
  | pair (path : Path) (value : Term)
  | table (path : Path)
  | element (path : Path)

inductive Value where
  | text (s : String)
  | integer (n : Int)
  | real (x : Float)
  | bool (b : Bool)
  | moment (m : Moment)
  | array (items : List Value)
  | table (entries : List (String × Value))

abbrev Reader (α : Type) := List Char → Option (α × List Char)

end BlockTemplate.Toml
