import BlockTemplate.Schema.Basic
import BlockTemplate.Session.Call
import BlockTemplate.Value.Error

/-! Why a session, a flat sequence or a code string is refused. All causes but those of code
strings carry the index of the call to blame. -/
namespace BlockTemplate

inductive ScopeFault where
  | elseOutside
  | elseInside (kind : ScopeKind) (openAt : Nat)
  | elseTwice (openAt : Nat)
  | closeOutside
  | unclosed (kind : ScopeKind) (openAt : Nat)
  | closeUnmatched
  | openUnmatched (openAt : Nat)
  deriving DecidableEq

def ScopeFault.reason : ScopeFault → String
  | .elseOutside => "else outside of an if-else scope"
  | .elseInside kind openAt =>
    "else inside a " ++ kind.name ++ " scope opened at call " ++ toString openAt
  | .elseTwice openAt =>
    "if-else scope opened at call " ++ toString openAt ++ " already switched to its else branch"
  | .closeOutside => "close without an open scope"
  | .unclosed kind openAt =>
    kind.name ++ " scope opened at call " ++ toString openAt ++ " is never closed"
  | .closeUnmatched => "close without a matching open"
  | .openUnmatched openAt => "scope opened at call " ++ toString openAt ++ " is never closed"

inductive ArgumentFault where
  | callTakesNone (given : Nat)
  | missing (position : Nat) (spec : ParamSpec)
  | wrongKind (position : Nat) (kind : Kind) (spec : ParamSpec)
  | slotsUsedUp (slots : Nat)
  | unexpected (kind : Kind) (position : Nat) (params : Nat)
  | unknownTag (tag : String)
  | notAnOption (tag option : String) (options : List String)
  | tagTwice (tag : String)
  deriving DecidableEq

def ArgumentFault.detail : ArgumentFault → String
  | .callTakesNone given => "calls take no parameters, " ++ toString given ++ " given"
  | .missing position spec =>
    "missing parameter at position " ++ toString position ++ ": expected " ++ spec.display
  | .wrongKind position kind spec =>
    "parameter at position " ++ toString position ++ " is a " ++ kind.name ++ " but " ++
      spec.display ++ " is expected"
  | .slotsUsedUp slots => "more than " ++ toString slots ++ " parameter slots used"
  | .unexpected kind position params =>
    "unexpected " ++ kind.name ++ " at position " ++ toString position ++ ": takes at most " ++
      toString params ++ " parameters"
  | .unknownTag tag => "unknown tag '" ++ tag ++ "'"
  | .notAnOption tag option options =>
    "'" ++ option ++ "' is not an option of tag '" ++ tag ++ "' (expected one of: " ++
      Text.joinWith ", " options ++ ")"
  | .tagTwice tag => "tag '" ++ tag ++ "' given twice"

inductive Misplacement where
  | notFirst
  | afterDefinition
  deriving DecidableEq

def Misplacement.reason (block : String) : Misplacement → String
  | .notFirst => "must be the first block of the code line"
  | .afterDefinition => "nothing may follow the end of a " ++ block ++ " definition"

/-- The layers of a code string, from the outside in. -/
inductive CodeLayer where
  | base64 | gzip | document
  deriving DecidableEq

def CodeLayer.complaint : CodeLayer → String
  | .base64 => "invalid base64"
  | .gzip => "invalid gzip data"
  | .document => "invalid document"

inductive CompileError where
  | invalidValue (index : Nat) (cause : ValueError)
  | unknownVariable (index : Nat) (name : String)
  | unbalancedScope (index : Nat) (fault : ScopeFault)
  | parameterMismatch (index : Nat) (block action expected : String) (fault : ArgumentFault)
  | unknownAction (index : Nat) (block action : String)
  | invalidTarget (index : Nat) (block : String) (target : Target)
  | misplacedHeader (index : Nat) (block : String) (fault : Misplacement)
  | codeTooLong (length max : Nat)
  | undecodable (layer : CodeLayer)
  deriving DecidableEq

namespace CompileError

def index? : CompileError → Option Nat
  | .invalidValue i _ | .unknownVariable i _ | .unbalancedScope i _
  | .parameterMismatch i _ _ _ _ | .unknownAction i _ _ | .invalidTarget i _ _
  | .misplacedHeader i _ _ => some i
  | .codeTooLong _ _ | .undecodable _ => none

def message : CompileError → String
  | .invalidValue i cause => atCall i ++ "invalid value: " ++ cause.message
  | .unknownVariable i name => atCall i ++ "unknown variable '" ++ name ++ "'"
  | .unbalancedScope i fault => atCall i ++ "unbalanced scope: " ++ fault.reason
  | .parameterMismatch i block action expected fault =>
    atCall i ++ block ++ " " ++ action ++ " expects " ++ expected ++ ": " ++ fault.detail
  | .unknownAction i block action =>
    atCall i ++ "unknown action '" ++ action ++ "' for " ++ block
  | .invalidTarget i block target =>
    atCall i ++ "target " ++ target.name ++ " is not valid for " ++ block
  | .misplacedHeader i block fault =>
    atCall i ++ "misplaced " ++ block ++ " block: " ++ fault.reason block
  | .codeTooLong length max =>
    "encoding failed: code is " ++ toString length ++ " characters long, the limit is " ++
      toString max
  | .undecodable layer => "cannot decode template: " ++ layer.complaint
where
  atCall (i : Nat) : String := "call " ++ toString i ++ ": "

end CompileError
end BlockTemplate
