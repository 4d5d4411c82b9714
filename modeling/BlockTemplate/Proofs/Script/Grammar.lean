import BlockTemplate.Proofs.Script.Lexing

/-! The grammar of scripts, as a relation between tokens and what they are read as. It says nothing
of the order in which alternatives are tried. -/
namespace BlockTemplate.Script

/-- Which tokens are read as what. -/
abbrev Phrase (α : Type) := Tokens → α → Prop

/-- From the start of the first token to the end of the last. -/
def spanOf : Tokens → Span
  | [] => ⟨0, 0⟩
  | t :: rest => ⟨t.span.start, lastStopOf t.span.stop rest⟩

/-- A name, bare or quoted. -/
inductive NameForm : Located Token → Name → Prop
  | bare : NameForm ⟨.ident s, span⟩ ⟨s, span⟩
  | quoted : NameForm ⟨.text s, span⟩ ⟨s, span⟩

/-- Items with commas between them and maybe after the last. -/
inductive Separated (item : Phrase α) : Phrase (List α)
  | none : Separated item [] []
  | last : item ts a → Separated item ts [a]
  | more : item ts a → Separated item us as →
      Separated item (ts ++ ⟨.punct .comma, comma⟩ :: us) (a :: as)

inductive EntryForm (value : Phrase Expr) : Phrase (Name × Expr)
  | entry : value ts e →
      EntryForm value (⟨.text key, span⟩ :: ⟨.punct .colon, colon⟩ :: ts) (⟨key, span⟩, e)

inductive ArgumentForm (value : Phrase Expr) : Phrase (Option Name × Expr)
  | positional : value ts e → ArgumentForm value ts (none, e)
  | named : value ts e →
      ArgumentForm value (⟨.ident key, span⟩ :: ⟨.punct .colon, colon⟩ :: ts) (some ⟨key, span⟩, e)

inductive ExprForm : Phrase Expr
  | text : ExprForm [⟨.text s, span⟩] (.text s span)
  | number : ExprForm [⟨.number x, span⟩] (.number x span)
  | ident : ExprForm [⟨.ident s, span⟩] (.ident s span)
  | list : Separated ExprForm ts items →
      ExprForm (⟨.punct .bracketOpen, first⟩ :: (ts ++ [⟨.punct .bracketClose, last⟩]))
        (.list items ⟨first.start, last.stop⟩)
  | dict : Separated (EntryForm ExprForm) ts entries →
      ExprForm (⟨.punct .braceOpen, first⟩ :: (ts ++ [⟨.punct .braceClose, last⟩]))
        (.dict entries ⟨first.start, last.stop⟩)
  | call : Separated (ArgumentForm ExprForm) ts args →
      ExprForm (⟨.ident s, first⟩ :: ⟨.punct .parenOpen, opening⟩ ::
          (ts ++ [⟨.punct .parenClose, last⟩]))
        (.call ⟨s, first⟩ args ⟨first.start, last.stop⟩)

inductive TagForm : Phrase (Name × Name)
  | tag : TagForm [⟨.text tag, a⟩, ⟨.punct .equals, equals⟩, ⟨.text choice, b⟩]
      (⟨tag, a⟩, ⟨choice, b⟩)

/-- Items between brackets, or nothing at all. -/
inductive GroupForm (opening closing : Punct) (item : Phrase α) : Phrase (List α)
  | absent : GroupForm opening closing item [] []
  | present : Separated item ts as →
      GroupForm opening closing item (⟨.punct opening, a⟩ :: (ts ++ [⟨.punct closing, b⟩])) as

abbrev ArgsForm : Phrase (List Expr) := GroupForm .parenOpen .parenClose ExprForm

abbrev TagsForm : Phrase TagList := GroupForm .braceOpen .braceClose TagForm

inductive TargetForm : Phrase (Option Name)
  | absent : TargetForm [] none
  | present : TargetForm [⟨.punct .atSign, a⟩, ⟨.ident s, b⟩] (some ⟨s, b⟩)

inductive NegatedForm : Phrase Bool
  | absent : NegatedForm [] false
  | present : NegatedForm [⟨.keyword .negate, a⟩] true

inductive KindForm : Phrase (Option Kind)
  | absent : KindForm [] none
  | present : Kind.ofName? s = some kind →
      KindForm [⟨.punct .colon, a⟩, ⟨.ident s, b⟩] (some kind)

inductive SubActionForm : Phrase (Option Name)
  | absent : SubActionForm [] none
  | present : NameForm t name → SubActionForm [t] (some name)

/-- An event with two names has its category in the first. -/
inductive EventForm : Phrase Statement
  | plain : NameForm t action → EventForm [t] (.event .event action)
  | ofCategory : NameForm t first → eventCategory? first.item = some category →
      NameForm u action → EventForm [t, u] (.event category action)

inductive DeclarationForm : Phrase Statement
  | declaration : VariableClass.ofWord? w = some scope → NameForm t name → KindForm ts kind →
      DeclarationForm (⟨.ident w, a⟩ :: t :: ts) (.declare scope name kind)

inductive ActionForm : Phrase ActionLine
  | action : actionCategory? w = some category → NameForm t action → TargetForm ts target →
      ArgsForm us args → TagsForm vs tags →
      ActionForm (⟨.ident w, a⟩ :: t :: (ts ++ (us ++ vs))) { category, action, target, args, tags }

inductive ConditionForm : Phrase ConditionLine
  | condition : conditionCategory? w = some category → NegatedForm ns negated →
      NameForm t action → TargetForm ts target → ArgsForm us args → TagsForm vs tags →
      ConditionForm (⟨.ident w, a⟩ :: (ns ++ t :: (ts ++ (us ++ vs))))
        { category, negated, action, target, args, tags }

inductive LoopForm : Phrase LoopLine
  | loop : NameForm t action → SubActionForm ss subAction → NegatedForm ns negated →
      ArgsForm us args → TagsForm vs tags →
      LoopForm (t :: (ss ++ (ns ++ (us ++ vs)))) { action, subAction, negated, args, tags }

inductive DefinitionForm : Phrase DefinitionLine
  | definition : ArgsForm us args → TagsForm vs tags →
      DefinitionForm (⟨.text s, a⟩ :: (us ++ vs)) { name := ⟨s, a⟩, args, tags }

/-- What can follow the keyword of a statement. There are eleven statements; the two conditions
are one of them. -/
inductive BodyForm : Keyword → Phrase Statement
  | event : EventForm ts st → BodyForm .event ts st
  | declare : DeclarationForm ts st → BodyForm .declare ts st
  | action : ActionForm ts line → BodyForm .action ts (.action line)
  | call : BodyForm .call [⟨.text s, a⟩] (.call ⟨s, a⟩)
  | start : BodyForm .start [⟨.text s, a⟩] (.start ⟨s, a⟩)
  | ifThen : ConditionForm ts line → BodyForm .ifThen ts (.ifThen line)
  | ifElse : ConditionForm ts line → BodyForm .ifElse ts (.ifElse line)
  | otherwise : BodyForm .otherwise [] .otherwise
  | close : BodyForm .close [] .close
  | loop : LoopForm ts line → BodyForm .loop ts (.loop line)
  | function : DefinitionForm ts line → BodyForm .function ts (.function line)
  | process : DefinitionForm ts line → BodyForm .process ts (.process line)

inductive StatementForm : Phrase Statement
  | statement : BodyForm k ts st → StatementForm (⟨.keyword k, a⟩ :: ts) st

inductive ScriptForm : Phrase (List (Located Statement))
  | empty : ScriptForm [] []
  | statement : StatementForm ts st → ScriptForm us script →
      ScriptForm (ts ++ us) (⟨st, spanOf ts⟩ :: script)

end BlockTemplate.Script
