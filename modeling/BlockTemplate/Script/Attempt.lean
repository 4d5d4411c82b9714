import BlockTemplate.Script.Error
import BlockTemplate.Script.Statement

/-! Attempts at reading tokens. A choice takes the first alternative that succeeds, each from the
same place; what has failed on the way is kept, as far as nothing has failed further on. -/
namespace BlockTemplate.Script

def asPunct (p : Punct) : Token → Option Unit
  | .punct q => if q = p then some () else none
  | _ => none

def asKeyword (k : Keyword) : Token → Option Unit
  | .keyword l => if l = k then some () else none
  | _ => none

def asIdent : Token → Option String
  | .ident s => some s
  | _ => none

def asText : Token → Option String
  | .text s => some s
  | _ => none

abbrev Tokens := List (Located Token)

structure Place where
  rest : Tokens
  lastStop : Nat

def Place.start (p : Place) : Nat :=
  match p.rest with
  | [] => p.lastStop
  | t :: _ => t.span.start

inductive Refusal where
  | unexpected (found : Option (Located Token)) (lastStop : Nat) (tried : List Expected)
  | unknownWord (role : WordRole) (word : Name)

/-- The furthest failure, and the number of tokens left there. -/
structure Kept where
  left : Nat
  refusal : Refusal

def Kept.nothing (p : Place) : Kept :=
  ⟨p.rest.length, .unexpected p.rest.head? p.lastStop []⟩

/-- Keeps what was looked for at a place in vain. A word that is not known stays the failure of its
place. -/
def Kept.join (k : Kept) (p : Place) (looked : List Expected) : Kept :=
  if p.rest.length < k.left then
    ⟨p.rest.length, .unexpected p.rest.head? p.lastStop looked⟩
  else if k.left < p.rest.length then k
  else
    match k.refusal with
    | .unexpected found lastStop tried => ⟨k.left, .unexpected found lastStop (tried ++ looked)⟩
    | .unknownWord _ _ => k

abbrev Attempt := StateT Place (OptionT (StateM Kept))

namespace Attempt
variable {α β : Type}

def miss (looked : List Expected) : Attempt α := fun p => OptionT.mk fun k =>
  (none, k.join p looked)

def token (looked : List Expected) (f : Token → Option α) : Attempt (Located α) := fun p =>
  match p.rest with
  | [] => miss looked p
  | ⟨t, span⟩ :: rest =>
    match f t with
    | some a => pure (⟨a, span⟩, ⟨rest, span.stop⟩)
    | none => miss looked p

def endOfInput : Attempt Unit := fun p =>
  match p.rest with
  | [] => pure ((), p)
  | _ => miss [.endOfInput] p

/-- What `g` reads has to pass `f`, which otherwise gives the word to blame. All failures before are
then forgotten, and this one counts where `g` began. -/
def check (role : WordRole) (g : Attempt α) (f : α → Except Name β) : Attempt β := fun p => do
  let (a, q) ← g p
  match f a with
  | .ok b => pure (b, q)
  | .error word => OptionT.mk fun _ => (none, ⟨p.rest.length, .unknownWord role word⟩)

def spanned (g : Attempt (Span → α)) : Attempt α := fun p => do
  let (make, q) ← g p
  pure (make ⟨p.start, q.lastStop⟩, q)

def located (g : Attempt α) : Attempt (Located α) := spanned (Located.mk <$> g)

def punct (p : Punct) : Attempt (Located Unit) := token [.punct p] (asPunct p)

def keyword (k : Keyword) : Attempt (Located Unit) := token [.keyword k] (asKeyword k)

def ident : Attempt Name := token [] asIdent

def text : Attempt Name := token [] asText

def separated (item : Attempt α) : Nat → Attempt (List α)
  | 0 => pure []
  | n + 1 =>
    (do
      let first ← item
      let others ← (punct .comma >>= fun _ => separated item n) <|> pure []
      return first :: others)
    <|> pure []

def closed (item : Attempt α) (closing : Punct) (n : Nat) : Attempt (List α) := do
  let items ← separated item n
  let _ ← punct closing
  return items

def group (opening closing : Punct) (item : Attempt α) (n : Nat) : Attempt (List α) := do
  let _ ← punct opening
  closed item closing n

def repeated (item : Attempt α) : Nat → Attempt (List α)
  | 0 => pure []
  | n + 1 =>
    (do
      let first ← item
      return first :: (← repeated item n))
    <|> pure []

def untilEnd (item : Attempt α) (n : Nat) : Attempt (List α) := do
  let items ← repeated item n
  endOfInput
  return items

end Attempt
end BlockTemplate.Script
