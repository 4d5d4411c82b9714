import BlockTemplate.Proofs.Script.Grammar

/-! Whether tokens form a script does not depend on where they stand. -/
namespace BlockTemplate.Script

/-- The same tokens, maybe at other places. -/
def SameItems (ts us : Tokens) : Prop := ts.map (·.item) = us.map (·.item)

namespace SameItems
variable {t : Located Token} {ts us vs : Tokens}

theorem nil_eq (h : SameItems [] us) : us = [] := List.map_eq_nil_iff.1 h.symm

theorem of_cons (h : SameItems (t :: ts) us) :
    ∃ span us', us = ⟨t.item, span⟩ :: us' ∧ SameItems ts us' := by
  obtain ⟨u, us', rfl, hu, hus⟩ := List.map_eq_cons_iff.1 h.symm
  obtain ⟨item, span⟩ := u
  obtain rfl : item = t.item := hu
  exact ⟨span, us', rfl, hus.symm⟩

theorem of_append (h : SameItems (ts ++ us) vs) :
    ∃ ts' us', vs = ts' ++ us' ∧ SameItems ts ts' ∧ SameItems us us' := by
  rw [SameItems, List.map_append] at h
  obtain ⟨ts', us', rfl, hts, hus⟩ := List.map_eq_append_iff.1 h.symm
  exact ⟨ts', us', rfl, hts.symm, hus.symm⟩

theorem of_singleton (h : SameItems [t] us) : ∃ span, us = [⟨t.item, span⟩] := by
  obtain ⟨span, us', rfl, hrest⟩ := h.of_cons
  exact ⟨span, by rw [hrest.nil_eq]⟩

end SameItems

/-- What has the form still has it at other places. -/
def Movable {α : Type} (form : Phrase α) (n : Nat) : Prop :=
  ∀ ts a us, form ts a → ts.length ≤ n → SameItems ts us → ∃ b, form us b

theorem Separated.movable {α : Type} {item : Phrase α} {n : Nat} (hitem : Movable item n) :
    Movable (Separated item) n := by
  intro ts as us h hn hus
  induction h generalizing us with
  | none => exact ⟨[], hus.nil_eq ▸ .none⟩
  | last ha =>
    obtain ⟨b, hb⟩ := hitem _ _ us ha hn hus
    exact ⟨[b], .last hb⟩
  | more ha hrest ih =>
    rw [List.length_append, List.length_cons] at hn
    obtain ⟨ts', rest, rfl, hts, hrest⟩ := hus.of_append
    obtain ⟨comma, vs, rfl, hvs⟩ := hrest.of_cons
    obtain ⟨b, hb⟩ := hitem _ _ ts' ha (by omega) hts
    obtain ⟨bs, hbs⟩ := ih vs (by omega) hvs
    exact ⟨b :: bs, .more hb hbs⟩

theorem EntryForm.movable {n : Nat} (h : Movable ExprForm n) :
    Movable (EntryForm ExprForm) n := by
  intro ts a us ha hn hus
  cases ha with
  | entry he =>
    obtain ⟨key, rest, rfl, hrest⟩ := hus.of_cons
    obtain ⟨colon, vs, rfl, hvs⟩ := hrest.of_cons
    rw [List.length_cons, List.length_cons] at hn
    obtain ⟨e, he⟩ := h _ _ vs he (by omega) hvs
    exact ⟨_, .entry he⟩

theorem ArgumentForm.movable {n : Nat} (h : Movable ExprForm n) :
    Movable (ArgumentForm ExprForm) n := by
  intro ts a us ha hn hus
  cases ha with
  | positional he =>
    obtain ⟨e, he⟩ := h _ _ us he hn hus
    exact ⟨_, .positional he⟩
  | named he =>
    obtain ⟨key, rest, rfl, hrest⟩ := hus.of_cons
    obtain ⟨colon, vs, rfl, hvs⟩ := hrest.of_cons
    rw [List.length_cons, List.length_cons] at hn
    obtain ⟨e, he⟩ := h _ _ vs he (by omega) hvs
    exact ⟨_, .named he⟩

/-- Items between brackets. -/
theorem Separated.move_closed {α : Type} {item : Phrase α} {n : Nat} (hitem : Movable item n)
    {ts us : Tokens} {as : List α} (h : Separated item ts as) (hn : ts.length ≤ n)
    {last : Located Token} (hus : SameItems (ts ++ [last]) us) :
    ∃ vs span bs, us = vs ++ [⟨last.item, span⟩] ∧ Separated item vs bs := by
  obtain ⟨vs, rest, rfl, hvs, hrest⟩ := hus.of_append
  obtain ⟨span, rfl⟩ := hrest.of_singleton
  obtain ⟨bs, hbs⟩ := Separated.movable hitem _ _ vs h hn hvs
  exact ⟨vs, span, bs, rfl, hbs⟩

theorem ExprForm.movable (n : Nat) : Movable ExprForm n := by
  induction n with
  | zero =>
    intro ts e us h hn
    cases h <;> simp at hn
  | succ n ih =>
    intro ts e us h hn hus
    cases h with
    | text =>
      obtain ⟨span, rfl⟩ := hus.of_singleton
      exact ⟨_, .text⟩
    | number =>
      obtain ⟨span, rfl⟩ := hus.of_singleton
      exact ⟨_, .number⟩
    | ident =>
      obtain ⟨span, rfl⟩ := hus.of_singleton
      exact ⟨_, .ident⟩
    | list hitems =>
      rw [List.length_cons, List.length_append, List.length_singleton] at hn
      obtain ⟨first, rest, rfl, hrest⟩ := hus.of_cons
      obtain ⟨vs, last, es, rfl, hes⟩ := hitems.move_closed ih (by omega) hrest
      exact ⟨_, .list hes⟩
    | dict hentries =>
      rw [List.length_cons, List.length_append, List.length_singleton] at hn
      obtain ⟨first, rest, rfl, hrest⟩ := hus.of_cons
      obtain ⟨vs, last, es, rfl, hes⟩ :=
        hentries.move_closed (EntryForm.movable ih) (by omega) hrest
      exact ⟨_, .dict hes⟩
    | call hargs =>
      rw [List.length_cons, List.length_cons, List.length_append, List.length_singleton] at hn
      obtain ⟨first, rest, rfl, hrest⟩ := hus.of_cons
      obtain ⟨opening, inner, rfl, hinner⟩ := hrest.of_cons
      obtain ⟨vs, last, as, rfl, has⟩ :=
        hargs.move_closed (ArgumentForm.movable ih) (by omega) hinner
      exact ⟨_, .call has⟩

section Statements
variable {ts us : Tokens}

theorem NameForm.move {t : Located Token} {a : Name} (h : NameForm t a) (span : Span) :
    ∃ b, NameForm ⟨t.item, span⟩ b ∧ b.item = a.item := by
  cases h with
  | bare => exact ⟨_, .bare, rfl⟩
  | quoted => exact ⟨_, .quoted, rfl⟩

theorem GroupForm.move {α : Type} {opening closing : Punct} {item : Phrase α} {as : List α}
    (h : GroupForm opening closing item ts as) (hitem : ∀ n, Movable item n)
    (hus : SameItems ts us) : ∃ bs, GroupForm opening closing item us bs := by
  cases h with
  | absent => exact ⟨[], hus.nil_eq ▸ .absent⟩
  | present has =>
    obtain ⟨first, rest, rfl, hrest⟩ := hus.of_cons
    obtain ⟨vs, last, bs, rfl, hbs⟩ := has.move_closed (hitem _) (Nat.le_refl _) hrest
    exact ⟨bs, .present hbs⟩

theorem TagForm.movable (n : Nat) : Movable TagForm n := by
  intro ts a us h _ hus
  cases h with
  | tag =>
    obtain ⟨tag, rest, rfl, hrest⟩ := hus.of_cons
    obtain ⟨equals, last, rfl, hlast⟩ := hrest.of_cons
    obtain ⟨choice, rfl⟩ := hlast.of_singleton
    exact ⟨_, .tag⟩

/-- The parts that most statements end with. -/
theorem move_argsTags {vs : Tokens} {args : List Expr} {tags : TagList} (hargs : ArgsForm ts args)
    (htags : TagsForm us tags) (hvs : SameItems (ts ++ us) vs) :
    ∃ ts' us' args tags, vs = ts' ++ us' ∧ ArgsForm ts' args ∧ TagsForm us' tags := by
  obtain ⟨ts', us', rfl, hts, hus⟩ := hvs.of_append
  obtain ⟨args', hargs'⟩ := hargs.move ExprForm.movable hts
  obtain ⟨tags', htags'⟩ := htags.move TagForm.movable hus
  exact ⟨ts', us', args', tags', rfl, hargs', htags'⟩

theorem TargetForm.move {o : Option Name} (h : TargetForm ts o) (hus : SameItems ts us) :
    ∃ o, TargetForm us o := by
  cases h with
  | absent => exact ⟨none, hus.nil_eq ▸ .absent⟩
  | present =>
    obtain ⟨sign, rest, rfl, hrest⟩ := hus.of_cons
    obtain ⟨span, rfl⟩ := hrest.of_singleton
    exact ⟨_, .present⟩

theorem NegatedForm.move {b : Bool} (h : NegatedForm ts b) (hus : SameItems ts us) :
    NegatedForm us b := by
  cases h with
  | absent => exact hus.nil_eq ▸ .absent
  | present =>
    obtain ⟨span, rfl⟩ := hus.of_singleton
    exact .present

theorem EventForm.move {st : Statement} (h : EventForm ts st) (hus : SameItems ts us) :
    ∃ st, EventForm us st := by
  cases h with
  | plain haction =>
    obtain ⟨span, rfl⟩ := hus.of_singleton
    obtain ⟨action, haction, _⟩ := haction.move span
    exact ⟨_, .plain haction⟩
  | ofCategory hfirst hcategory haction =>
    obtain ⟨span, rest, rfl, hrest⟩ := hus.of_cons
    obtain ⟨span', rfl⟩ := hrest.of_singleton
    obtain ⟨first, hfirst, hsame⟩ := hfirst.move span
    obtain ⟨action, haction, _⟩ := haction.move span'
    exact ⟨_, .ofCategory hfirst (hsame ▸ hcategory) haction⟩

theorem DeclarationForm.move {st : Statement} (h : DeclarationForm ts st)
    (hus : SameItems ts us) : ∃ st, DeclarationForm us st := by
  cases h with
  | declaration hscope hname hkind =>
    obtain ⟨word, rest, rfl, hrest⟩ := hus.of_cons
    obtain ⟨span, last, rfl, hlast⟩ := hrest.of_cons
    obtain ⟨name, hname, _⟩ := hname.move span
    cases hkind with
    | absent =>
      obtain rfl := hlast.nil_eq
      exact ⟨_, .declaration hscope hname .absent⟩
    | present hkind =>
      obtain ⟨colon, kind, rfl, hkindAt⟩ := hlast.of_cons
      obtain ⟨kindSpan, rfl⟩ := hkindAt.of_singleton
      exact ⟨_, .declaration hscope hname (.present hkind)⟩

theorem ActionForm.move {line : ActionLine} (h : ActionForm ts line) (hus : SameItems ts us) :
    ∃ line, ActionForm us line := by
  cases h with
  | action hcategory haction htarget hargs htags =>
    obtain ⟨word, rest, rfl, hrest⟩ := hus.of_cons
    obtain ⟨span, parts, rfl, hparts⟩ := hrest.of_cons
    obtain ⟨target, last, rfl, htargetAt, hlast⟩ := hparts.of_append
    obtain ⟨args, tags, _, _, rfl, hargs, htags⟩ := move_argsTags hargs htags hlast
    obtain ⟨action, haction, _⟩ := haction.move span
    obtain ⟨_, htarget⟩ := htarget.move htargetAt
    exact ⟨_, .action hcategory haction htarget hargs htags⟩

theorem ConditionForm.move {line : ConditionLine} (h : ConditionForm ts line)
    (hus : SameItems ts us) : ∃ line, ConditionForm us line := by
  cases h with
  | condition hcategory hnegated haction htarget hargs htags =>
    obtain ⟨word, rest, rfl, hrest⟩ := hus.of_cons
    obtain ⟨negated, named, rfl, hnegatedAt, hnamed⟩ := hrest.of_append
    obtain ⟨span, parts, rfl, hparts⟩ := hnamed.of_cons
    obtain ⟨target, last, rfl, htargetAt, hlast⟩ := hparts.of_append
    obtain ⟨args, tags, _, _, rfl, hargs, htags⟩ := move_argsTags hargs htags hlast
    obtain ⟨action, haction, _⟩ := haction.move span
    obtain ⟨_, htarget⟩ := htarget.move htargetAt
    exact ⟨_, .condition hcategory (hnegated.move hnegatedAt) haction htarget hargs htags⟩

theorem LoopForm.move {line : LoopLine} (h : LoopForm ts line) (hus : SameItems ts us) :
    ∃ line, LoopForm us line := by
  cases h with
  | loop haction hsub hnegated hargs htags =>
    obtain ⟨span, rest, rfl, hrest⟩ := hus.of_cons
    obtain ⟨sub, parts, rfl, hsubAt, hparts⟩ := hrest.of_append
    obtain ⟨negated, last, rfl, hnegatedAt, hlast⟩ := hparts.of_append
    obtain ⟨args, tags, _, _, rfl, hargs, htags⟩ := move_argsTags hargs htags hlast
    obtain ⟨action, haction, _⟩ := haction.move span
    have hsub : ∃ o, SubActionForm sub o := by
      cases hsub with
      | absent => exact ⟨none, hsubAt.nil_eq ▸ .absent⟩
      | present hname =>
        obtain ⟨subSpan, rfl⟩ := hsubAt.of_singleton
        obtain ⟨name, hname, _⟩ := hname.move subSpan
        exact ⟨_, .present hname⟩
    obtain ⟨_, hsub⟩ := hsub
    exact ⟨_, .loop haction hsub (hnegated.move hnegatedAt) hargs htags⟩

theorem DefinitionForm.move {line : DefinitionLine} (h : DefinitionForm ts line)
    (hus : SameItems ts us) : ∃ line, DefinitionForm us line := by
  cases h with
  | definition hargs htags =>
    obtain ⟨span, last, rfl, hlast⟩ := hus.of_cons
    obtain ⟨args, tags, _, _, rfl, hargs, htags⟩ := move_argsTags hargs htags hlast
    exact ⟨_, .definition hargs htags⟩

theorem BodyForm.move {k : Keyword} {st : Statement} (h : BodyForm k ts st)
    (hus : SameItems ts us) : ∃ st, BodyForm k us st := by
  cases h with
  | event h =>
    obtain ⟨_, h⟩ := h.move hus
    exact ⟨_, .event h⟩
  | declare h =>
    obtain ⟨_, h⟩ := h.move hus
    exact ⟨_, .declare h⟩
  | action h =>
    obtain ⟨_, h⟩ := h.move hus
    exact ⟨_, .action h⟩
  | call =>
    obtain ⟨span, rfl⟩ := hus.of_singleton
    exact ⟨_, .call⟩
  | start =>
    obtain ⟨span, rfl⟩ := hus.of_singleton
    exact ⟨_, .start⟩
  | ifThen h =>
    obtain ⟨_, h⟩ := h.move hus
    exact ⟨_, .ifThen h⟩
  | ifElse h =>
    obtain ⟨_, h⟩ := h.move hus
    exact ⟨_, .ifElse h⟩
  | otherwise =>
    obtain rfl := hus.nil_eq
    exact ⟨_, .otherwise⟩
  | close =>
    obtain rfl := hus.nil_eq
    exact ⟨_, .close⟩
  | loop h =>
    obtain ⟨_, h⟩ := h.move hus
    exact ⟨_, .loop h⟩
  | function h =>
    obtain ⟨_, h⟩ := h.move hus
    exact ⟨_, .function h⟩
  | process h =>
    obtain ⟨_, h⟩ := h.move hus
    exact ⟨_, .process h⟩

theorem ScriptForm.move {script : List (Located Statement)} (h : ScriptForm ts script)
    (hus : SameItems ts us) : ∃ script, ScriptForm us script := by
  induction h generalizing us with
  | empty => exact ⟨[], hus.nil_eq ▸ .empty⟩
  | statement hst _ ih =>
    obtain ⟨ts', rest, rfl, hts, hrest⟩ := hus.of_append
    obtain ⟨_, hscript⟩ := ih hrest
    cases hst with
    | statement hbody =>
      obtain ⟨span, body, rfl, hbodyAt⟩ := hts.of_cons
      obtain ⟨_, hbody⟩ := hbody.move hbodyAt
      exact ⟨_, .statement (.statement hbody) hscript⟩

end Statements

end BlockTemplate.Script
