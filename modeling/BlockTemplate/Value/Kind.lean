/-! Kinds of values, classes of variables, and references to variables. -/
namespace BlockTemplate

inductive Kind where
  | text | number | location | vector | item | sound | potion | particle
  | gameValue | variable | list | dict
  deriving DecidableEq

namespace Kind

def all : List Kind :=
  [.text, .number, .location, .vector, .item, .sound, .potion, .particle,
   .gameValue, .variable, .list, .dict]

def name : Kind → String
  | .text => "text"
  | .number => "number"
  | .location => "location"
  | .vector => "vector"
  | .item => "item"
  | .sound => "sound"
  | .potion => "potion"
  | .particle => "particle"
  | .gameValue => "game_value"
  | .variable => "variable"
  | .list => "list"
  | .dict => "dict"

def ofName? (s : String) : Option Kind := all.find? (·.name == s)

end Kind

inductive VariableClass where
  | localVar | savedVar | globalVar
  deriving DecidableEq

namespace VariableClass

def all : List VariableClass := [.localVar, .savedVar, .globalVar]

def word : VariableClass → String
  | .localVar => "local"
  | .savedVar => "saved"
  | .globalVar => "global"

def documentWord : VariableClass → String
  | .localVar => "local"
  | .savedVar => "saved"
  | .globalVar => "unsaved"

def ofWord? (s : String) : Option VariableClass := all.find? (·.word == s)

end VariableClass

structure VarRef where
  name : String
  scope : VariableClass
  deriving DecidableEq

end BlockTemplate
