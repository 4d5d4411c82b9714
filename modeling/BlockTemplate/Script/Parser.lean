import BlockTemplate.Script.Attempt
import BlockTemplate.Script.Lexer

/-! Reading tokens as statements: the rules of the grammar, as attempts. -/
namespace BlockTemplate.Script

def asLiteral : Token → Option (Span → Expr)
  | .text s => some (.text s)
  | .number x => some (.number x)
  | _ => none

namespace Attempt

def name : Attempt Name := ident <|> text

def word {α : Type} (role : WordRole) (f : String → Option α) : Attempt α :=
  check role ident fun w =>
    match f w.item with
    | some a => .ok a
    | none => .error w

def argument (value : Attempt Expr) : Attempt (Option Name × Expr) :=
  (do
    let name ← ident
    let _ ← punct .colon
    return (some name, ← value))
  <|> (do return (none, ← value))

def entry (value : Attempt Expr) : Attempt (Name × Expr) := do
  let key ← text
  let _ ← punct .colon
  return (key, ← value)

def expr : Nat → Attempt Expr
  | 0 => failure
  | n + 1 => spanned <|
    (do return (← token [] asLiteral).item)
    <|> (do
      let head ← ident
      return .call head (← group .parenOpen .parenClose (argument (expr n)) n))
    <|> (do return .ident (← ident).item)
    <|> (do return .list (← group .bracketOpen .bracketClose (expr n) n))
    <|> (do return .dict (← group .braceOpen .braceClose (entry (expr n)) n))

def args (n : Nat) : Attempt (List Expr) :=
  group .parenOpen .parenClose (expr n) n <|> pure []

def tag : Attempt (Name × Name) := do
  let tag ← text
  let _ ← punct .equals
  return (tag, ← text)

def tags (n : Nat) : Attempt TagList :=
  group .braceOpen .braceClose tag n <|> pure []

def target : Attempt (Option Name) := optional (punct .atSign >>= fun _ => ident)

def negated : Attempt Bool := return (← optional (keyword .negate)).isSome

def eventOf : Name × Option Name → Except Name Statement
  | (first, none) => .ok (.event .event first)
  | (first, some action) =>
    match eventCategory? first.item with
    | some category => .ok (.event category action)
    | none => .error first

/-- The check covers the keyword: an unknown category counts where the statement begins. -/
def event : Attempt Statement :=
  check .eventCategory
    (do
      let _ ← keyword .event
      let first ← name
      return (first, ← optional name))
    eventOf

def kind : Attempt (Option Kind) :=
  optional (punct .colon >>= fun _ => word .valueKind Kind.ofName?)

def declaration : Attempt Statement := do
  let scope ← word .variableClass VariableClass.ofWord?
  let name ← name
  return .declare scope name (← kind)

def action (n : Nat) : Attempt ActionLine := do
  let category ← word .actionCategory actionCategory?
  let action ← name
  let target ← target
  let args ← args n
  return { category, action, target, args, tags := ← tags n }

def condition (n : Nat) : Attempt ConditionLine := do
  let category ← word .conditionCategory conditionCategory?
  let negated ← negated
  let action ← name
  let target ← target
  let args ← args n
  return { category, negated, action, target, args, tags := ← tags n }

def loop (n : Nat) : Attempt LoopLine := do
  let action ← name
  let subAction ← optional name
  let negated ← negated
  let args ← args n
  return { action, subAction, negated, args, tags := ← tags n }

def definition (n : Nat) : Attempt DefinitionLine := do
  let name ← text
  let args ← args n
  return { name, args, tags := ← tags n }

def clause {α : Type} (k : Keyword) (line : Attempt α) : Attempt α := keyword k >>= fun _ => line

def statement (n : Nat) : Attempt Statement :=
  event
  <|> clause .declare declaration
  <|> clause .action (.action <$> action n)
  <|> clause .call (.call <$> text)
  <|> clause .start (.start <$> text)
  <|> (do
    let make ← clause .ifThen (pure Statement.ifThen) <|> clause .ifElse (pure Statement.ifElse)
    make <$> condition n)
  <|> clause .otherwise (pure .otherwise)
  <|> clause .close (pure .close)
  <|> clause .loop (.loop <$> loop n)
  <|> clause .function (.function <$> definition n)
  <|> clause .process (.process <$> definition n)

def script (n : Nat) : Attempt (List (Located Statement)) := untilEnd (located (statement n)) n

end Attempt

/-- In the order in which they were looked for, each once. -/
def expectedTexts (tried : List Expected) : List String :=
  (tried.map (·.describe)).eraseDups

/-- A refusal as an error. Where the source ends too early the place goes from its length to the
end of the last token. -/
def Refusal.toError (length : Nat) : Refusal → ScriptError
  | .unexpected (some found) _ tried =>
    .unread (.unexpected (some found.item) (expectedTexts tried)) found.span
  | .unexpected none lastStop tried =>
    .unread (.unexpected none (expectedTexts tried)) ⟨length, lastStop⟩
  | .unknownWord role word => .unread (.unknownWord role word.item) word.span

def tokensOf : List (Located Lexeme) → Tokens
  | [] => []
  | ⟨.token t, span⟩ :: rest => ⟨t, span⟩ :: tokensOf rest
  | ⟨.unreadable _, _⟩ :: rest => tokensOf rest

def unreadableOf : List (Located Lexeme) → List ScriptError
  | [] => []
  | ⟨.token _, _⟩ :: rest => unreadableOf rest
  | ⟨.unreadable text, span⟩ :: rest => .unread (.unreadable text) span :: unreadableOf rest

def outcomeOf {α : Type} (length : Nat) :
    Option (α × Place) × Kept → Except ScriptError α
  | (some (a, _), _) => .ok a
  | (none, kept) => .error (kept.refusal.toError length)

def parseTokens (length : Nat) (tokens : Tokens) :
    Except ScriptError (List (Located Statement)) :=
  let start : Place := ⟨tokens, if tokens.isEmpty then length else 0⟩
  outcomeOf length (Attempt.script (tokens.length + 1) start (.nothing start))

/-- The statements of a source text. Unreadable text is reported before anything is parsed. -/
def parse (source : String) : Except (List ScriptError) (List (Located Statement)) :=
  let lexemes := lex source
  match unreadableOf lexemes with
  | [] => (parseTokens source.utf8ByteSize (tokensOf lexemes)).mapError ([·])
  | errors => .error errors

end BlockTemplate.Script
