import BlockTemplate.Decimal.Layout

/-! The tokens of scripts. -/
namespace BlockTemplate.Script

/-- A range of bytes of the source. -/
structure Span where
  start : Nat
  stop : Nat
  deriving DecidableEq

structure Located (α : Type) where
  item : α
  span : Span
  deriving DecidableEq

inductive Keyword where
  | event | declare | action | call | start | ifThen | ifElse | otherwise | negate
  | loop | close | function | process
  deriving DecidableEq

namespace Keyword

def all : List Keyword :=
  [.event, .declare, .action, .call, .start, .ifThen, .ifElse, .otherwise, .negate,
   .loop, .close, .function, .process]

def word : Keyword → String
  | .event => "event"
  | .declare => "declare"
  | .action => "action"
  | .call => "call"
  | .start => "start"
  | .ifThen => "if"
  | .ifElse => "ifelse"
  | .otherwise => "else"
  | .negate => "not"
  | .loop => "repeat"
  | .close => "end"
  | .function => "function"
  | .process => "process"

def ofWord? (s : String) : Option Keyword := all.find? (·.word == s)

def startsStatement (k : Keyword) : Bool := k ≠ .negate

end Keyword

inductive Punct where
  | parenOpen | parenClose | braceOpen | braceClose | bracketOpen | bracketClose
  | comma | colon | equals | atSign
  deriving DecidableEq

namespace Punct

def all : List Punct :=
  [.parenOpen, .parenClose, .braceOpen, .braceClose, .bracketOpen, .bracketClose,
   .comma, .colon, .equals, .atSign]

def char : Punct → Char
  | .parenOpen => '('
  | .parenClose => ')'
  | .braceOpen => '\x7b'
  | .braceClose => '\x7d'
  | .bracketOpen => '['
  | .bracketClose => ']'
  | .comma => ','
  | .colon => ':'
  | .equals => '='
  | .atSign => '@'

def ofChar? (c : Char) : Option Punct := all.find? (·.char == c)

end Punct

inductive Token where
  | keyword (k : Keyword)
  | punct (p : Punct)
  | ident (s : String)
  | text (s : String)
  | number (x : Float)
  deriving DecidableEq

def Token.describe : Token → String
  | .keyword k => "keyword '" ++ k.word ++ "'"
  | .punct p => "'" ++ p.char.toString ++ "'"
  | .ident s => "identifier '" ++ s ++ "'"
  | .text s => "string \"" ++ s ++ "\""
  | .number x => "number " ++ Decimal.plain x

end BlockTemplate.Script
