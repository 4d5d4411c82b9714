import BlockTemplate.Script.Parser

/-! Reading with one token of lookahead. One token decides at every point how to go on, so nothing
is ever taken back; the fixed tokens looked for in vain since the last token was taken are kept. -/
namespace BlockTemplate.Script

def asStatementKeyword : Token → Option Keyword
  | .keyword k => if k.startsStatement then some k else none
  | _ => none

def asName : Token → Option String
  | .ident s | .text s => some s
  | _ => none

structure Cursor where
  rest : Tokens
  /-- Where the last token taken ended. -/
  lastStop : Nat
  tried : List Expected := []

abbrev Parse := StateT Cursor (Except Refusal)

namespace Parse

/-- Takes the next token if `f` knows it; otherwise keeps what was looked for. -/
def take? {α : Type} (looked : List Expected) (f : Token → Option α) :
    Parse (Option (Located α)) := fun c =>
  match c.rest with
  | [] => .ok (none, { c with tried := c.tried ++ looked })
  | ⟨t, span⟩ :: rest =>
    match f t with
    | some a => .ok (some ⟨a, span⟩, { rest := rest, lastStop := span.stop })
    | none => .ok (none, { c with tried := c.tried ++ looked })

def refuse {α : Type} : Parse α := fun c =>
  .error (.unexpected c.rest.head? c.lastStop c.tried)

def orRefuse {α : Type} (p : Parse (Option α)) : Parse α := do
  match ← p with
  | some a => return a
  | none => refuse

def punct? (p : Punct) : Parse (Option (Located Unit)) := take? [.punct p] (asPunct p)

def punct (p : Punct) : Parse (Located Unit) := orRefuse (punct? p)

def ident : Parse Name := orRefuse (take? [] asIdent)

def text : Parse Name := orRefuse (take? [] asText)

def name? : Parse (Option Name) := take? [] asName

def name : Parse Name := orRefuse name?

/-- An identifier that has to be one of the words known to `f`. -/
def word {α : Type} (role : WordRole) (f : String → Option α) : Parse α := do
  let w ← ident
  match f w.item with
  | some a => return a
  | none => throw (.unknownWord role w)

/-- Where the last token taken ended. -/
def stop : Parse Nat := return (← get).lastStop

/-- Items up to a closing token, with commas between them and maybe after the last. -/
def items {α : Type} (item : Parse α) (closing : Punct) : Nat → Parse (List α)
  | 0 => refuse
  | n + 1 => do
    if (← punct? closing).isSome then return []
    let first ← item
    if (← punct? .comma).isSome then
      return first :: (← items item closing n)
    let _ ← punct closing
    return [first]

/-- An identifier before a colon names the argument. -/
def argument (value : Parse Expr) (afterIdent : Name → Parse Expr) :
    Parse (Option Name × Expr) := do
  match ← take? [] asIdent with
  | none => return (none, ← value)
  | some head =>
    if (← punct? .colon).isSome then return (some head, ← value)
    return (none, ← afterIdent head)

def entry (value : Parse Expr) : Parse (Name × Expr) := do
  let key ← text
  let _ ← punct .colon
  return (key, ← value)

mutual

/-- An expression that nests less deep than the number given. -/
def expr : Nat → Parse Expr
  | 0 => refuse
  | n + 1 => do
    if let some literal ← take? [] asLiteral then return literal.item literal.span
    if let some head ← take? [] asIdent then return ← exprTail n head
    if let some opening ← punct? .bracketOpen then
      let list ← items (expr n) .bracketClose n
      return .list list ⟨opening.span.start, ← stop⟩
    let opening ← punct .braceOpen
    let entries ← items (entry (expr n)) .braceClose n
    return .dict entries ⟨opening.span.start, ← stop⟩

/-- The expression that a leading identifier begins: a call if arguments follow. -/
def exprTail : Nat → Name → Parse Expr
  | 0, _ => refuse
  | n + 1, head => do
    if (← punct? .parenOpen).isSome then
      let args ← items (argument (expr n) (exprTail n)) .parenClose n
      return .call head args ⟨head.span.start, ← stop⟩
    return .ident head.item head.span

end

def args (n : Nat) : Parse (List Expr) := do
  if (← punct? .parenOpen).isSome then items (expr n) .parenClose n else return []

def tag : Parse (Name × Name) := do
  let tag ← text
  let _ ← punct .equals
  return (tag, ← text)

def tags (n : Nat) : Parse TagList := do
  if (← punct? .braceOpen).isSome then items tag .braceClose n else return []

def target : Parse (Option Name) := do
  if (← punct? .atSign).isSome then return some (← ident) else return none

def negated : Parse Bool := do
  return (← take? [.keyword .negate] (asKeyword .negate)).isSome

def event : Parse Statement := do
  let first ← name
  match ← name? with
  | none => return .event .event first
  | some action =>
    match eventCategory? first.item with
    | some category => return .event category action
    | none => throw (.unknownWord .eventCategory first)

def kind : Parse (Option Kind) := do
  if (← punct? .colon).isSome then return some (← word .valueKind Kind.ofName?) else return none

def declaration : Parse Statement := do
  let scope ← word .variableClass VariableClass.ofWord?
  let name ← name
  return .declare scope name (← kind)

def action (n : Nat) : Parse ActionLine := do
  let category ← word .actionCategory actionCategory?
  let action ← name
  let target ← target
  let args ← args n
  return { category, action, target, args, tags := ← tags n }

def condition (n : Nat) : Parse ConditionLine := do
  let category ← word .conditionCategory conditionCategory?
  let negated ← negated
  let action ← name
  let target ← target
  let args ← args n
  return { category, negated, action, target, args, tags := ← tags n }

def loop (n : Nat) : Parse LoopLine := do
  let action ← name
  let subAction ← name?
  let negated ← negated
  let args ← args n
  return { action, subAction, negated, args, tags := ← tags n }

def definition (n : Nat) : Parse DefinitionLine := do
  let name ← text
  let args ← args n
  return { name, args, tags := ← tags n }

/-- The statement after its first keyword. -/
def statement (n : Nat) : Keyword → Parse Statement
  | .event => event
  | .declare => declaration
  | .action => .action <$> action n
  | .call => .call <$> text
  | .start => .start <$> text
  | .ifThen => .ifThen <$> condition n
  | .ifElse => .ifElse <$> condition n
  | .otherwise => pure .otherwise
  | .close => pure .close
  | .loop => .loop <$> loop n
  | .function => .function <$> definition n
  | .process => .process <$> definition n
  | .negate => refuse

def statementKeywords : List Expected :=
  (Keyword.all.filter (·.startsStatement)).map .keyword

def atEnd : Parse Bool := do
  match (← get).rest with
  | [] => return true
  | _ => return false

/-- Statements up to the end, fewer than the number given. -/
def statements (size : Nat) : Nat → Parse (List (Located Statement))
  | 0 => refuse
  | n + 1 => do
    if ← atEnd then return []
    let first ← orRefuse (take? (statementKeywords ++ [.endOfInput]) asStatementKeyword)
    let item ← statement size first.item
    let span := ⟨first.span.start, ← stop⟩
    return ⟨item, span⟩ :: (← statements size n)

end Parse

/-- No token that `f` knows comes next. -/
def Avoids {α : Type} (f : Token → Option α) (ts : Tokens) : Prop :=
  ∀ t ∈ ts.head?, f t.item = none

theorem avoids_nil {α : Type} {f : Token → Option α} : Avoids f [] := by simp [Avoids]

theorem avoids_cons {α : Type} {f : Token → Option α} {t : Located Token} {ts : Tokens}
    (h : f t.item = none) : Avoids f (t :: ts) := by
  intro u hu
  obtain rfl := Option.some.inj hu
  exact h

theorem Avoids.append {α : Type} {f : Token → Option α} {ts us : Tokens} (hts : Avoids f ts)
    (hus : Avoids f us) : Avoids f (ts ++ us) := by
  cases ts with
  | nil => exact hus
  | cons t ts => exact avoids_cons (hts t rfl)

theorem asPunct_self (p : Punct) : asPunct p (.punct p) = some () := if_pos rfl

theorem asKeyword_self (w : Keyword) : asKeyword w (.keyword w) = some () := if_pos rfl

theorem eq_punct_of_asPunct {p : Punct} {t : Located Token} {u : Unit}
    (h : asPunct p t.item = some u) : t = ⟨.punct p, t.span⟩ := by
  obtain ⟨item, span⟩ := t
  cases item with
  | punct q =>
    by_cases hq : q = p
    · rw [hq]
    · simp [asPunct, hq] at h
  | keyword | ident | text | number => cases h

theorem eq_ident_of_asIdent {t : Located Token} {s : String} (h : asIdent t.item = some s) :
    t = ⟨.ident s, t.span⟩ := by
  obtain ⟨item, span⟩ := t
  cases item <;> cases h
  rfl

theorem eq_keyword_of_asKeyword {k : Keyword} {t : Located Token} {u : Unit}
    (h : asKeyword k t.item = some u) : t = ⟨.keyword k, t.span⟩ := by
  obtain ⟨item, span⟩ := t
  cases item with
  | keyword l =>
    by_cases hl : l = k
    · rw [hl]
    · simp [asKeyword, hl] at h
  | punct | ident | text | number => cases h

theorem eq_keyword_of_asStatementKeyword {t : Located Token} {k : Keyword}
    (h : asStatementKeyword t.item = some k) :
    t = ⟨.keyword k, t.span⟩ ∧ k.startsStatement = true := by
  obtain ⟨item, span⟩ := t
  cases item with
  | keyword l =>
    by_cases hl : l.startsStatement = true
    · simp only [asStatementKeyword, hl, if_true, Option.some.injEq] at h
      exact ⟨by rw [h], h ▸ hl⟩
    · simp [asStatementKeyword, hl] at h
  | punct | ident | text | number => cases h

theorem eq_text_of_asText {t : Located Token} {s : String} (h : asText t.item = some s) :
    t = ⟨.text s, t.span⟩ := by
  obtain ⟨item, span⟩ := t
  cases item <;> cases h
  rfl

theorem avoids_or_taken {α : Type} (f : Token → Option α) (ts : Tokens) :
    Avoids f ts ∨ ∃ t rest a, ts = t :: rest ∧ f t.item = some a := by
  cases ts with
  | nil => exact .inl avoids_nil
  | cons t rest =>
    cases ha : f t.item with
    | none => exact .inl (avoids_cons ha)
    | some a => exact .inr ⟨t, rest, a, rfl, ha⟩

theorem avoids_or_punct (b : Punct) (ts : Tokens) :
    Avoids (asPunct b) ts ∨ ∃ span rest, ts = ⟨.punct b, span⟩ :: rest := by
  refine (avoids_or_taken (asPunct b) ts).imp_right ?_
  rintro ⟨t, rest, u, rfl, ht⟩
  exact ⟨t.span, rest, by rw [← eq_punct_of_asPunct ht]⟩

theorem avoids_or_ident (ts : Tokens) :
    Avoids asIdent ts ∨ ∃ s span rest, ts = ⟨.ident s, span⟩ :: rest := by
  refine (avoids_or_taken asIdent ts).imp_right ?_
  rintro ⟨t, rest, s, rfl, ht⟩
  exact ⟨s, t.span, rest, by rw [← eq_ident_of_asIdent ht]⟩

namespace Parse
variable {α β : Type} {f : Token → Option α} {looked tried : List Expected} {lastStop : Nat}

theorem bind_of_ok {p : Parse α} {k : α → Parse β} {c d : Cursor} {a : α}
    (h : p c = .ok (a, d)) : (p >>= k) c = k a d := by
  change Except.bind _ _ = _
  rw [h]
  rfl

theorem bind_of_error {p : Parse α} {k : α → Parse β} {c : Cursor} {e : Refusal}
    (h : p c = .error e) : (p >>= k) c = .error e := by
  change Except.bind _ _ = _
  rw [h]
  rfl

theorem atEnd_eq (c : Cursor) : atEnd c = .ok (c.rest.isEmpty, c) := by
  obtain ⟨rest, _⟩ := c
  cases rest <;> rfl

theorem take?_some {t : Located Token} {rest : Tokens} {a : α} (h : f t.item = some a) :
    take? looked f ⟨t :: rest, lastStop, tried⟩ =
      .ok (some ⟨a, t.span⟩, ⟨rest, t.span.stop, []⟩) := by
  simp [take?, h]

theorem take?_none {rest : Tokens} (h : Avoids f rest) :
    take? looked f ⟨rest, lastStop, tried⟩ = .ok (none, ⟨rest, lastStop, tried ++ looked⟩) := by
  cases rest with
  | nil => rfl
  | cons t rest => simp [take?, h t rfl]

theorem punct?_next {b : Punct} {span : Span} {rest : Tokens} :
    punct? b ⟨⟨.punct b, span⟩ :: rest, lastStop, tried⟩ =
      .ok (some ⟨(), span⟩, ⟨rest, span.stop, []⟩) :=
  take?_some (asPunct_self b)

theorem punct_next {b : Punct} {span : Span} {rest : Tokens} :
    punct b ⟨⟨.punct b, span⟩ :: rest, lastStop, tried⟩ =
      .ok (⟨(), span⟩, ⟨rest, span.stop, []⟩) :=
  bind_of_ok punct?_next

end Parse
end BlockTemplate.Script
