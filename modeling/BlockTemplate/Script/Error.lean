import BlockTemplate.Error
import BlockTemplate.Script.Token

/-! Why a script is refused. Every cause has the place to blame. -/
namespace BlockTemplate.Script

inductive Expected where
  | keyword (k : Keyword)
  | punct (p : Punct)
  | endOfInput
  deriving DecidableEq

def Expected.describe : Expected → String
  | .keyword k => (Token.keyword k).describe
  | .punct p => (Token.punct p).describe
  | .endOfInput => "end of input"

inductive WordRole where
  | actionCategory | conditionCategory | variableClass | valueKind | eventCategory
  deriving DecidableEq

def WordRole.complaint (word : String) : WordRole → String
  | .actionCategory =>
    "Unknown action category '" ++ word ++
      "', expected player, entity, game, control, set or select"
  | .conditionCategory =>
    "Unknown condition category '" ++ word ++ "', expected player, entity, game or var"
  | .variableClass =>
    "Unknown variable scope '" ++ word ++ "', expected local, saved or global"
  | .valueKind => "Unknown value kind '" ++ word ++ "'"
  | .eventCategory =>
    "Unknown event category '" ++ word ++ "', expected player or entity"

inductive ReadFault where
  | unreadable (text : String)
  /-- The token found, or the end, and the texts of what could have stood there. -/
  | unexpected (found : Option Token) (expected : List String)
  | unknownWord (role : WordRole) (word : String)
  deriving DecidableEq

namespace ReadFault

def message : ReadFault → String
  | .unreadable text => "Unrecognized input '" ++ text ++ "'"
  | .unexpected (some t) _ => "Unexpected " ++ t.describe
  | .unexpected none _ => "Unexpected end of input"
  | .unknownWord role word => role.complaint word

def expected : ReadFault → List String
  | .unexpected _ expected => expected
  | _ => []

end ReadFault

inductive MeaningFault where
  | unknownTarget (word : String)
  | unknownValueTarget (word : String)
  | bareIdentifier (word : String)
  | unknownConstructor (word : String)
  | wrongCount (head : String) (wanted given : Nat)
  | unknownArgument (head key : String)
  | repeatedArgument (key : String)
  | notNumber
  | notWhole (x : Float)
  | notText
  | notName
  | notFlag
  | notEnchantments
  deriving DecidableEq

def MeaningFault.message : MeaningFault → String
  | .unknownTarget word => "Unknown target '@" ++ word ++ "'"
  | .unknownValueTarget word => "Unknown target '" ++ word ++ "'"
  | .bareIdentifier word =>
    "Bare identifier '" ++ word ++ "'; write var(" ++ word ++ ") or quote it as text"
  | .unknownConstructor word =>
    "Unknown constructor '" ++ word ++
      "', expected var, loc, vec, item, sound, potion or gval"
  | .wrongCount head wanted given =>
    head ++ " takes " ++ toString wanted ++ " positional arguments, got " ++ toString given
  | .unknownArgument head key => head ++ " has no argument named '" ++ key ++ "'"
  | .repeatedArgument key => "Argument '" ++ key ++ "' given twice"
  | .notNumber => "Expected a number"
  | .notWhole x => "Expected a whole number, got " ++ Decimal.plain x
  | .notText => "Expected a quoted string"
  | .notName => "Expected a name"
  | .notFlag => "Expected true or false"
  | .notEnchantments => "enchant expects a dictionary such as \x7b \"sharpness\": 5 \x7d"

inductive ScriptError where
  | unread (fault : ReadFault) (span : Span)
  | meaningless (fault : MeaningFault) (span : Span)
  deriving DecidableEq

namespace ScriptError

def span : ScriptError → Span
  | .unread _ span | .meaningless _ span => span

def message : ScriptError → String
  | .unread fault _ => fault.message
  | .meaningless fault _ => fault.message

def display : ScriptError → String
  | .unread fault span =>
    "Syntax error at " ++ toString span.start ++ ".." ++ toString span.stop ++ ": " ++
      fault.message
  | .meaningless fault _ => fault.message

end ScriptError

inductive Failure where
  | script (errors : List ScriptError)
  /-- A call was refused; the place is that of the statement or expression to blame. -/
  | compile (error : CompileError) (span : Option Span)
  deriving DecidableEq

namespace Failure

def meaningless (fault : MeaningFault) (span : Span) : Failure :=
  .script [.meaningless fault span]

def message : Failure → String
  | .script errors => "script errors: " ++ Text.joinWith "; " (errors.map (·.display))
  | .compile error _ => error.message

end Failure
end BlockTemplate.Script
