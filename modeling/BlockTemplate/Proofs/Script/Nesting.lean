import BlockTemplate.Proofs.Script.Evaluation
import BlockTemplate.Proofs.Script.Recognition
import BlockTemplate.Proofs.Script.Tiling

/-! The statements of a script share out its tokens, and what is written in a statement stands inside
of what it is a part of, in order. -/
namespace BlockTemplate.Script

/-- A range with all of another in it. -/
def Span.Holds (outer s : Span) : Prop := outer.start ≤ s.start ∧ s.stop ≤ outer.stop

def entrySpans : Name × Expr → List Span
  | (key, e) => [key.span, e.span]

def argumentSpans : Option Name × Expr → List Span
  | (none, e) => [e.span]
  | (some key, e) => [key.span, e.span]

def tagSpans : Name × Name → List Span
  | (tag, choice) => [tag.span, choice.span]

def nameSpans (o : Option Name) : List Span := o.toList.map (·.span)

namespace Expr

/-- The names and expressions right inside of an expression, in order. -/
def inner : Expr → List Span
  | .text _ _ | .number _ _ | .ident _ _ => []
  | .list items _ => items.map span
  | .dict entries _ => entries.flatMap entrySpans
  | .call head args _ => head.span :: args.flatMap argumentSpans

def children : Expr → List Expr
  | .text _ _ | .number _ _ | .ident _ _ => []
  | .list items _ => items
  | .dict entries _ => entries.map (·.2)
  | .call _ args _ => args.map (·.2)

/-- However deep an expression is, what is inside of each part stands in a row within it. -/
inductive Nested : Expr → Prop
  | intro {e : Expr} : Row e.span.start e.span.stop e.inner → (∀ child ∈ e.children, Nested child) →
      Nested e

end Expr

namespace Statement

/-- What most statements end with. -/
def tailSpans (args : List Expr) (tags : TagList) : List Span :=
  args.map Expr.span ++ tags.flatMap tagSpans

/-- The names and expressions right inside of a statement, in order. -/
def inner : Statement → List Span
  | .event _ name | .declare _ name _ | .call name | .start name => [name.span]
  | .action line => line.action.span :: (nameSpans line.target ++ tailSpans line.args line.tags)
  | .ifThen line | .ifElse line =>
    line.action.span :: (nameSpans line.target ++ tailSpans line.args line.tags)
  | .loop line => line.action.span :: (nameSpans line.subAction ++ tailSpans line.args line.tags)
  | .function line | .process line => line.name.span :: tailSpans line.args line.tags
  | .otherwise | .close => []

structure Nested (st : Located Statement) : Prop where
  inner : Row st.span.start st.span.stop st.item.inner
  args : ∀ e ∈ st.item.args, e.Nested

end Statement

namespace Row
variable {low mid high : Nat} {s : Span} {spans others : List Span}

theorem wider {below above : Nat} (h : Row low high spans) (hlow : below ≤ low)
    (hhigh : high ≤ above) : Row below above spans := by
  induction spans generalizing low below with
  | nil => exact Nat.le_trans hlow (Nat.le_trans h hhigh)
  | cons s rest ih => exact ⟨Nat.le_trans hlow h.1, h.2.1, ih h.2.2 (Nat.le_refl _)⟩

theorem tail (h : Row low high (s :: spans)) : Row low high spans :=
  h.2.2.wider (Nat.le_trans h.1 (Nat.le_of_lt h.2.1)) (Nat.le_refl _)

theorem append (h : Row low mid spans) (hothers : Row mid high others) :
    Row low high (spans ++ others) := by
  induction spans generalizing low with
  | nil => exact hothers.wider h (Nat.le_refl _)
  | cons s rest ih => exact ⟨h.1, h.2.1, ih h.2.2⟩

end Row

abbrev InRow {α : Type} (low high : Nat) (xs : List (Located α)) : Prop :=
  Row low high (xs.map Located.span)

namespace InRow
variable {α : Type} {low high : Nat} {xs ys : List (Located α)}

theorem split (h : InRow low high (xs ++ ys)) :
    InRow low (lastStopOf low xs) xs ∧ InRow (lastStopOf low xs) high ys := by
  induction xs generalizing low with
  | nil => exact ⟨Nat.le_refl _, h⟩
  | cons x rest ih =>
    obtain ⟨hrest, hys⟩ := ih h.2.2
    exact ⟨⟨h.1, h.2.1, hrest⟩, hys⟩

theorem front (h : InRow low high (xs ++ ys)) : InRow low high xs :=
  h.split.1.wider (Nat.le_refl _) h.split.2.le

theorem back (h : InRow low high (xs ++ ys)) : InRow low high ys :=
  h.split.2.wider h.split.1.le (Nat.le_refl _)

/-- What is between two brackets is inside of what begins and ends with them. -/
theorem between {first last : Located α} (h : InRow low high (first :: (xs ++ [last]))) :
    Row low high [⟨first.span.start, last.span.stop⟩] ∧
      InRow first.span.stop last.span.stop xs := by
  obtain ⟨hlow, hfirst, hrest⟩ := h
  obtain ⟨hxs, hlast, hpos, hhigh⟩ := split hrest
  have hle := hxs.le
  have hpositive : first.span.start < last.span.stop := by omega
  exact ⟨⟨hlow, hpositive, hhigh⟩, hxs.wider (Nat.le_refl _) (by omega)⟩

/-- Only one of them holds a given stretch of text. -/
theorem holder_unique (h : InRow low high xs) {s : Span} (hs : s.start < s.stop) {x y : Located α}
    (hx : x ∈ xs) (hxs : x.span.Holds s) (hy : y ∈ xs) (hys : y.span.Holds s) : x = y := by
  induction xs generalizing low with
  | nil => cases hx
  | cons first rest ih =>
    have hafter : ∀ z ∈ rest, first.span.Holds s → z.span.Holds s → False := by
      intro z hz hfirst hlater
      have hstart := (h.2.2.bounds (List.mem_map_of_mem hz)).1
      have hstop := hfirst.2
      have hlow := hlater.1
      omega
    cases hx with
    | head =>
      cases hy with
      | head => rfl
      | tail _ hy => exact (hafter y hy hxs hys).elim
    | tail _ hx =>
      cases hy with
      | head => exact (hafter x hx hys hxs).elim
      | tail _ hy => exact ih h.2.2 hx hy

end InRow

theorem tokensOf_inRow {low high : Nat} {xs : List (Located Lexeme)} (h : InRow low high xs) :
    InRow low high (tokensOf xs) := by
  induction xs generalizing low with
  | nil => exact h
  | cons x rest ih =>
    obtain ⟨item, span⟩ := x
    cases item with
    | token t => exact ⟨h.1, h.2.1, ih h.2.2⟩
    | unreadable text => exact ih h.tail

/-- Read from tokens in a row, a phrase puts its spans in the same row, and is good. -/
def Lays {α : Type} (form : Phrase α) (spans : α → List Span) (good : α → Prop) : Prop :=
  ∀ ts a low high, form ts a → InRow low high ts → Row low high (spans a) ∧ good a

/-- The readings of at most so many tokens. -/
def UpTo {α : Type} (n : Nat) (form : Phrase α) : Phrase α := fun ts a => ts.length ≤ n ∧ form ts a

section Phrases
variable {α : Type} {item : Phrase α} {spans : α → List Span} {good : α → Prop} {n : Nat}

theorem Lays.upTo (h : Lays item spans good) (n : Nat) : Lays (UpTo n item) spans good :=
  fun ts a low high ha hrow => h ts a low high ha.2 hrow

theorem Lays.of_upTo (h : ∀ n, Lays (UpTo n item) spans good) : Lays item spans good :=
  fun ts a low high ha hrow => h ts.length ts a low high ⟨Nat.le_refl _, ha⟩ hrow

theorem Separated.lays (hitem : Lays (UpTo n item) spans good) :
    Lays (UpTo n (Separated item)) (List.flatMap spans) (fun as => ∀ a ∈ as, good a) := by
  rintro ts as low high ⟨hn, h⟩ hrow
  induction h generalizing low with
  | none => exact ⟨hrow, by simp⟩
  | last ha =>
    obtain ⟨hspans, hgood⟩ := hitem _ _ _ _ ⟨hn, ha⟩ hrow
    simpa using ⟨hspans, hgood⟩
  | more ha _ ih =>
    rw [List.length_append, List.length_cons] at hn
    obtain ⟨hfirst, hothers⟩ := InRow.split hrow
    obtain ⟨hspans, hgood⟩ := hitem _ _ _ _ ⟨by omega, ha⟩ hfirst
    obtain ⟨hrest, hgoods⟩ := ih _ (by omega) hothers.tail
    exact ⟨hspans.append hrest, List.forall_mem_cons.2 ⟨hgood, hgoods⟩⟩

theorem GroupForm.lays {opening closing : Punct} (hitem : Lays item spans good) :
    Lays (GroupForm opening closing item) (List.flatMap spans) (fun as => ∀ a ∈ as, good a) := by
  intro ts as low high h hrow
  cases h with
  | absent => exact ⟨hrow, by simp⟩
  | present has =>
    have hitems := Lays.of_upTo fun n => Separated.lays (hitem.upTo n)
    exact hitems _ _ _ _ has (InRow.front hrow.tail)

end Phrases

section Exprs
variable {n : Nat}

abbrev exprSpans (e : Expr) : List Span := [e.span]

theorem flatMap_exprSpans (items : List Expr) : items.flatMap exprSpans = items.map Expr.span :=
  List.map_eq_flatMap.symm

theorem EntryForm.lays (h : Lays (UpTo n ExprForm) exprSpans Expr.Nested) :
    Lays (UpTo n (EntryForm ExprForm)) entrySpans (·.2.Nested) := by
  rintro ts a low high ⟨hn, ha⟩ hrow
  cases ha with
  | entry he =>
    rw [List.length_cons, List.length_cons] at hn
    obtain ⟨hspan, hnested⟩ := h _ _ _ _ ⟨by omega, he⟩ hrow.2.2.tail
    exact ⟨⟨hrow.1, hrow.2.1, hspan⟩, hnested⟩

theorem ArgumentForm.lays (h : Lays (UpTo n ExprForm) exprSpans Expr.Nested) :
    Lays (UpTo n (ArgumentForm ExprForm)) argumentSpans (·.2.Nested) := by
  rintro ts a low high ⟨hn, ha⟩ hrow
  cases ha with
  | positional he => exact h _ _ _ _ ⟨hn, he⟩ hrow
  | named he =>
    rw [List.length_cons, List.length_cons] at hn
    obtain ⟨hspan, hnested⟩ := h _ _ _ _ ⟨by omega, he⟩ hrow.2.2.tail
    exact ⟨⟨hrow.1, hrow.2.1, hspan⟩, hnested⟩

/-- By induction on the number of tokens: inside of brackets there are fewer. -/
theorem ExprForm.lays_upTo (n : Nat) : Lays (UpTo n ExprForm) exprSpans Expr.Nested := by
  induction n with
  | zero =>
    rintro ts e low high ⟨hn, h⟩
    cases h <;> simp at hn
  | succ n ih =>
    rintro ts e low high ⟨hn, h⟩ hrow
    have hfirst : ∀ {s : Span} {spans : List Span}, Row low high (s :: spans) → s.start ≤ s.stop :=
      fun hrow => Nat.le_of_lt hrow.2.1
    cases h with
    | text | number | ident =>
      exact ⟨hrow, .intro (hfirst hrow) (by simp [Expr.children])⟩
    | list hitems =>
      rw [List.length_cons, List.length_append, List.length_singleton] at hn
      obtain ⟨hspan, hbetween⟩ := InRow.between hrow
      obtain ⟨hinner, hnested⟩ := Separated.lays ih _ _ _ _ ⟨by omega, hitems⟩ hbetween
      rw [flatMap_exprSpans] at hinner
      exact ⟨hspan, .intro (hinner.wider (hfirst hrow) (Nat.le_refl _)) hnested⟩
    | dict hentries =>
      rw [List.length_cons, List.length_append, List.length_singleton] at hn
      obtain ⟨hspan, hbetween⟩ := InRow.between hrow
      obtain ⟨hinner, hnested⟩ :=
        Separated.lays (EntryForm.lays ih) _ _ _ _ ⟨by omega, hentries⟩ hbetween
      refine ⟨hspan, .intro (hinner.wider (hfirst hrow) (Nat.le_refl _)) ?_⟩
      exact List.forall_mem_map.2 hnested
    | call hargs =>
      rw [List.length_cons, List.length_cons, List.length_append, List.length_singleton] at hn
      rw [← List.cons_append] at hrow
      obtain ⟨hspan, hbetween⟩ := InRow.between hrow
      obtain ⟨hinner, hnested⟩ :=
        Separated.lays (ArgumentForm.lays ih) _ _ _ _ ⟨by omega, hargs⟩ hbetween.tail
      refine ⟨hspan, .intro ⟨Nat.le_refl _, hrow.2.1, hinner⟩ ?_⟩
      exact List.forall_mem_map.2 hnested

theorem ExprForm.lays : Lays ExprForm exprSpans Expr.Nested := Lays.of_upTo ExprForm.lays_upTo

end Exprs

section Statements
variable {low high : Nat} {t : Located Token} {ts us vs : Tokens} {name : Name} {o : Option Name}
  {args : List Expr} {tags : TagList} {spans : List Span}

theorem NameForm.span_eq (h : NameForm t name) : name.span = t.span := by
  cases h <;> rfl

theorem NameForm.row (h : NameForm t name) (hrow : InRow low high (t :: ts))
    (hspans : Row t.span.stop high spans) : Row low high (name.span :: spans) := by
  rw [h.span_eq]
  exact ⟨hrow.1, hrow.2.1, hspans⟩

theorem TargetForm.row (h : TargetForm ts o) (hrow : InRow low high ts) :
    Row low high (nameSpans o) := by
  cases h with
  | absent => exact hrow
  | present => exact hrow.tail

theorem SubActionForm.row (h : SubActionForm ts o) (hrow : InRow low high ts) :
    Row low high (nameSpans o) := by
  cases h with
  | absent => exact hrow
  | present hname => exact hname.row hrow hrow.2.2

theorem TagForm.lays : Lays TagForm tagSpans (fun _ => True) := by
  intro ts a low high h hrow
  cases h with
  | tag => exact ⟨⟨hrow.1, hrow.2.1, hrow.2.2.tail⟩, trivial⟩

theorem lays_argsTags (hargs : ArgsForm us args) (htags : TagsForm vs tags)
    (hrow : InRow low high (us ++ vs)) :
    Row low high (Statement.tailSpans args tags) ∧ ∀ e ∈ args, e.Nested := by
  obtain ⟨hus, hvs⟩ := hrow.split
  obtain ⟨hargSpans, hnested⟩ := GroupForm.lays ExprForm.lays _ _ _ _ hargs hus
  obtain ⟨htagSpans, _⟩ := GroupForm.lays TagForm.lays _ _ _ _ htags hvs
  rw [flatMap_exprSpans] at hargSpans
  exact ⟨hargSpans.append htagSpans, hnested⟩

/-- A name, an optional second one, and what most statements end with. -/
theorem lays_named (hname : NameForm t name) (hrow : InRow low high (t :: (ts ++ us)))
    (hts : ∀ {low high}, InRow low high ts → Row low high (nameSpans o))
    (hus : ∀ {low high}, InRow low high us →
      Row low high (Statement.tailSpans args tags) ∧ ∀ e ∈ args, e.Nested) :
    Row low high (name.span :: (nameSpans o ++ Statement.tailSpans args tags)) ∧
      ∀ e ∈ args, e.Nested := by
  obtain ⟨hsecond, hlast⟩ := InRow.split hrow.2.2
  obtain ⟨htail, hnested⟩ := hus hlast
  exact ⟨hname.row hrow ((hts hsecond).append htail), hnested⟩

theorem BodyForm.lays (k : Keyword) :
    Lays (BodyForm k) Statement.inner (fun st => ∀ e ∈ st.args, e.Nested) := by
  intro ts st low high h hrow
  cases h with
  | event h =>
    refine ⟨?_, by cases h <;> simp [Statement.args]⟩
    cases h with
    | plain hname => exact hname.row hrow hrow.2.2
    | ofCategory _ _ hname => exact hname.row hrow.tail hrow.tail.2.2
  | declare h =>
    cases h with
    | declaration _ hname _ =>
      exact ⟨hname.row hrow.tail hrow.tail.2.2.le, by simp [Statement.args]⟩
  | action h =>
    cases h with
    | action _ hname htarget hargs htags =>
      exact lays_named hname hrow.tail htarget.row (lays_argsTags hargs htags)
  | ifThen h | ifElse h =>
    cases h with
    | condition _ _ hname htarget hargs htags =>
      exact lays_named hname (InRow.back hrow.tail) htarget.row (lays_argsTags hargs htags)
  | loop h =>
    cases h with
    | loop hname hsub _ hargs htags =>
      exact lays_named hname hrow hsub.row fun hrow => lays_argsTags hargs htags (InRow.back hrow)
  | function h | process h =>
    cases h with
    | definition hargs htags =>
      obtain ⟨htail, hnested⟩ := lays_argsTags hargs htags hrow.2.2
      exact ⟨⟨hrow.1, hrow.2.1, htail⟩, hnested⟩
  | call | start | otherwise | close => exact ⟨hrow, by simp [Statement.args]⟩

/-- A statement begins where its keyword does and ends with its last token. -/
theorem StatementForm.lays {st : Statement} (h : StatementForm ts st)
    (hrow : InRow low high (ts ++ us)) :
    low ≤ (spanOf ts).start ∧ (spanOf ts).start < (spanOf ts).stop ∧
      InRow (spanOf ts).stop high us ∧ InRow (spanOf ts).start (spanOf ts).stop ts ∧
      Statement.Nested ⟨st, spanOf ts⟩ := by
  cases h with
  | @statement k body st a hbody =>
    -- The row splits where the body ends, which is the end of the statement by definition.
    obtain ⟨⟨hlow, hpos, hbodyRow⟩, hus⟩ := hrow.split
    obtain ⟨hinner, hnested⟩ := BodyForm.lays k _ _ _ _ hbody hbodyRow
    have hstart : a.start < (spanOf (⟨.keyword k, a⟩ :: body)).stop :=
      Nat.lt_of_lt_of_le hpos hbodyRow.le
    exact ⟨hlow, hstart, hus, ⟨Nat.le_refl _, hpos, hbodyRow⟩,
      hinner.wider (Nat.le_of_lt hpos) (Nat.le_refl _), hnested⟩

theorem spanOf_ends (h : ts ≠ []) : ∃ first last, ts.head? = some first ∧
    ts.getLast? = some last ∧ spanOf ts = ⟨first.span.start, last.span.stop⟩ := by
  obtain ⟨first, rest, rfl⟩ := List.exists_cons_of_ne_nil h
  obtain rfl | ⟨front, last, rfl⟩ := List.eq_nil_or_concat rest
  · exact ⟨first, first, rfl, rfl, rfl⟩
  · rw [List.concat_eq_append]
    refine ⟨first, last, rfl, ?_, ?_⟩
    · rw [← List.cons_append, List.getLast?_concat]
    · rw [spanOf, lastStopOf_append]
      rfl

end Statements

section Scripts
variable {low high : Nat} {ts : Tokens} {script : List (Located Statement)}

theorem ScriptForm.inRow (h : ScriptForm ts script) (hrow : InRow low high ts) :
    InRow low high script := by
  induction h generalizing low with
  | empty => exact hrow
  | statement hst _ ih =>
    obtain ⟨hlow, hpos, hothers, _⟩ := hst.lays hrow
    exact ⟨hlow, hpos, ih hothers⟩

theorem ScriptForm.nested (h : ScriptForm ts script) (hrow : InRow low high ts) :
    ∀ st ∈ script, Statement.Nested st := by
  induction h generalizing low with
  | empty => simp
  | statement hst _ ih =>
    obtain ⟨_, _, hothers, _, hnested⟩ := hst.lays hrow
    exact List.forall_mem_cons.2 ⟨hnested, ih hothers⟩

/-- Each token is in the range of a statement. -/
theorem ScriptForm.holder (h : ScriptForm ts script) (hrow : InRow low high ts)
    {t : Located Token} (ht : t ∈ ts) : ∃ st ∈ script, st.span.Holds t.span := by
  induction h generalizing low with
  | empty => cases ht
  | statement hst _ ih =>
    obtain ⟨_, _, hothers, hown, _⟩ := hst.lays hrow
    obtain ht | ht := List.mem_append.1 ht
    · obtain ⟨hstart, _, hstop⟩ := hown.bounds (List.mem_map_of_mem ht)
      exact ⟨_, List.mem_cons_self, hstart, hstop⟩
    · obtain ⟨st, hst, hholds⟩ := ih hothers ht
      exact ⟨st, List.mem_cons_of_mem _ hst, hholds⟩

/-- The tokens that each statement is read from. -/
theorem ScriptForm.shares (h : ScriptForm ts script) : ∃ shares : List Tokens,
    shares.flatten = ts ∧ List.Forall₂ (fun own st => StatementForm own st.item ∧
      ∃ first last, own.head? = some first ∧ own.getLast? = some last ∧
        st.span = ⟨first.span.start, last.span.stop⟩) shares script := by
  induction h with
  | empty => exact ⟨[], rfl, .nil⟩
  | @statement own st others script hst _ ih =>
    obtain ⟨shares, rfl, hshares⟩ := ih
    have hne : own ≠ [] := by
      cases hst
      exact List.cons_ne_nil _ _
    exact ⟨own :: shares, rfl, .cons ⟨hst, spanOf_ends hne⟩ hshares⟩

end Scripts

/-- The statements of a script stand one after the other, each from its first token to its last, and
no token is outside of them or in two. What is inside of a statement is nested. -/
theorem parse_shares_tokens {source : String} {script : List (Located Statement)}
    (h : parse source = .ok script) :
    Row 0 source.utf8ByteSize (script.map Located.span) ∧
    (∃ shares : List Tokens, shares.flatten = tokensOf (lex source) ∧
      List.Forall₂ (fun own st => StatementForm own st.item ∧
        ∃ first last, own.head? = some first ∧ own.getLast? = some last ∧
          st.span = ⟨first.span.start, last.span.stop⟩) shares script) ∧
    (∀ t ∈ tokensOf (lex source), ∃! st, st ∈ script ∧ st.span.Holds t.span) ∧
    ∀ st ∈ script, Statement.Nested st := by
  obtain ⟨_, hform⟩ := parse_eq_ok_iff.1 h
  have htokens : InRow 0 source.utf8ByteSize (tokensOf (lex source)) :=
    tokensOf_inRow (lex_row source)
  have hscript := hform.inRow htokens
  refine ⟨hscript, hform.shares, fun t ht => ?_, hform.nested htokens⟩
  obtain ⟨st, hst, hholds⟩ := hform.holder htokens ht
  have hpos := (htokens.bounds (List.mem_map_of_mem ht)).2.1
  refine ⟨st, ⟨hst, hholds⟩, ?_⟩
  rintro other ⟨hother, hotherHolds⟩
  exact hscript.holder_unique hpos hother hotherHolds hst hholds

/-- A list in a call in a dictionary, after a comment and a letter of two bytes. -/
def listInDict : String :=
  "call \"é\" // x\nif var A(\x7b\"k\": f(n: [y])\x7d) end"

theorem parse_shares_tokens_listInDict : ∃ script, parse listInDict = .ok script ∧
    script.map Located.span = [⟨0, 9⟩, ⟨15, 41⟩, ⟨42, 45⟩] ∧
    (∀ t ∈ tokensOf (lex listInDict), ∃! st, st ∈ script ∧ st.span.Holds t.span) ∧
    ∀ st ∈ script, Statement.Nested st := by
  obtain ⟨script, hparse, hspans⟩ : ∃ script, parse listInDict = .ok script ∧
      script.map Located.span = [⟨0, 9⟩, ⟨15, 41⟩, ⟨42, 45⟩] :=
    exists_ok_of_map (by decide +kernel)
  obtain ⟨_, _, hholder, hnested⟩ := parse_shares_tokens hparse
  exact ⟨script, hparse, hspans, hholder, hnested⟩

end BlockTemplate.Script
