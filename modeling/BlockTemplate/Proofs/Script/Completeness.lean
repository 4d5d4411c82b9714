import BlockTemplate.Proofs.Script.Cursor
import BlockTemplate.Proofs.Script.Grammar

/-! Whatever the grammar allows is read. A part that may be absent is left out only if the next
token cannot begin it, so a parser needs to know what follows. -/
namespace BlockTemplate.Script

/-- Before `rest`, the parser takes all of `ts` and gives `a`. -/
def Yields {α : Type} (lastStop : Nat) (p : Parse α) (ts : Tokens) (a : α) (rest : Tokens) :
    Prop :=
  ∀ tried, ∃ tried',
    p ⟨ts ++ rest, lastStop, tried⟩ = .ok (a, ⟨rest, lastStopOf lastStop ts, tried'⟩)

theorem lastStopOf_append {α : Type} (start : Nat) (xs ys : List (Located α)) :
    lastStopOf start (xs ++ ys) = lastStopOf (lastStopOf start xs) ys := by
  induction xs generalizing start with
  | nil => rfl
  | cons x xs ih => exact ih x.span.stop

namespace Yields
variable {α β : Type} {lastStop : Nat} {p : Parse α} {t : Located Token} {ts us rest : Tokens}
  {a : α} {b : β} {f : Token → Option α} {looked : List Expected}

theorem pure : Yields lastStop (Pure.pure a) [] a rest := fun tried => ⟨tried, rfl⟩

theorem bind {k : α → Parse β} (hp : Yields lastStop p ts a (us ++ rest))
    (hk : Yields (lastStopOf lastStop ts) (k a) us b rest) :
    Yields lastStop (p >>= k) (ts ++ us) b rest := by
  intro tried
  obtain ⟨tried₁, h₁⟩ := hp tried
  obtain ⟨tried₂, h₂⟩ := hk tried₁
  refine ⟨tried₂, ?_⟩
  rw [lastStopOf_append, List.append_assoc, ← h₂]
  exact Parse.bind_of_ok h₁

theorem bind_pure {g : α → β} (hp : Yields lastStop p ts a rest) :
    Yields lastStop (p >>= fun a => Pure.pure (g a)) ts (g a) rest := by
  have h : Yields lastStop (p >>= fun a => Pure.pure (g a)) (ts ++ []) (g a) rest :=
    bind (by exact hp) pure
  rwa [List.append_nil] at h

theorem map {g : α → β} (hp : Yields lastStop p ts a rest) :
    Yields lastStop (g <$> p) ts (g a) rest :=
  hp.bind_pure

theorem take {k : Option (Located α) → Parse β} (hf : f t.item = some a)
    (hk : Yields t.span.stop (k (some ⟨a, t.span⟩)) us b rest) :
    Yields lastStop (Parse.take? looked f >>= k) (t :: us) b rest := by
  have htake : Yields lastStop (Parse.take? looked f) [t] (some ⟨a, t.span⟩) (us ++ rest) :=
    fun _ => ⟨[], Parse.take?_some hf⟩
  exact htake.bind hk

theorem skip {k : Option (Located α) → Parse β} (hf : Avoids f (us ++ rest))
    (hk : Yields lastStop (k none) us b rest) :
    Yields lastStop (Parse.take? looked f >>= k) us b rest := by
  have hskip : Yields lastStop (Parse.take? looked f) [] none (us ++ rest) :=
    fun tried => ⟨tried ++ looked, Parse.take?_none hf⟩
  exact hskip.bind hk

theorem want {k : Located α → Parse β} (hf : f t.item = some a)
    (hk : Yields t.span.stop (k ⟨a, t.span⟩) us b rest) :
    Yields lastStop (Parse.orRefuse (Parse.take? looked f) >>= k) (t :: us) b rest := by
  have hwant : Yields lastStop (Parse.orRefuse (Parse.take? looked f)) [t] ⟨a, t.span⟩
      (us ++ rest) := take hf pure
  exact hwant.bind hk

theorem stop {k : Nat → Parse β} (hk : Yields lastStop (k lastStop) us b rest) :
    Yields lastStop (Parse.stop >>= k) us b rest := by
  have hstop : Yields lastStop Parse.stop [] lastStop (us ++ rest) := fun tried => ⟨tried, rfl⟩
  exact hstop.bind hk

theorem atEnd {k : Bool → Parse β} (hk : Yields lastStop (k (us ++ rest).isEmpty) us b rest) :
    Yields lastStop (Parse.atEnd >>= k) us b rest := by
  have hend : Yields lastStop Parse.atEnd [] (us ++ rest).isEmpty (us ++ rest) :=
    fun tried => ⟨tried, Parse.atEnd_eq _⟩
  exact hend.bind hk

/-- The place of what has been read ends with its last token. -/
theorem bind_stop {g : α → Nat → β} (hp : Yields lastStop p (ts ++ [t]) a rest) :
    Yields lastStop (p >>= fun a => Parse.stop >>= fun n => Pure.pure (g a n)) (ts ++ [t])
      (g a t.span.stop) rest := by
  have hlast : lastStopOf lastStop (ts ++ [t]) = t.span.stop := lastStopOf_append _ _ _
  have h : Yields lastStop (p >>= fun a => Parse.stop >>= fun n => Pure.pure (g a n))
      (ts ++ [t] ++ []) (g a t.span.stop) rest := by
    refine bind (by exact hp) ?_
    rw [hlast]
    exact stop pure
  rwa [List.append_nil] at h

end Yields

/-- What follows an item: a comma or the end of the items. -/
def Ends (closing : Punct) (rest : Tokens) : Prop :=
  ∃ t more, rest = t :: more ∧ (t.item = .punct .comma ∨ t.item = .punct closing)

theorem Ends.avoids {closing p : Punct} {rest : Tokens} (h : Ends closing rest)
    (hcomma : p ≠ .comma) (hclosing : p ≠ closing) : Avoids (asPunct p) rest := by
  obtain ⟨t, more, rfl, ht⟩ := h
  refine avoids_cons ?_
  obtain ht | ht := ht <;> simp [ht, asPunct, hcomma.symm, hclosing.symm]

theorem ends_closing {closing : Punct} {span : Span} {rest : Tokens} :
    Ends closing (⟨.punct closing, span⟩ :: rest) := ⟨_, _, rfl, .inr rfl⟩

theorem ends_comma {closing : Punct} {span : Span} {rest : Tokens} :
    Ends closing (⟨.punct .comma, span⟩ :: rest) := ⟨_, _, rfl, .inl rfl⟩

/-- The first token is not this sign. -/
def BeginsOther (p : Punct) (ts : Tokens) : Prop :=
  ∃ t more, ts = t :: more ∧ asPunct p t.item = none

theorem BeginsOther.append {p : Punct} {ts : Tokens} (h : BeginsOther p ts) (us : Tokens) :
    BeginsOther p (ts ++ us) := by
  obtain ⟨t, more, rfl, ht⟩ := h
  exact ⟨t, more ++ us, rfl, ht⟩

theorem BeginsOther.avoids {p : Punct} {ts : Tokens} (h : BeginsOther p ts) (rest : Tokens) :
    Avoids (asPunct p) (ts ++ rest) := by
  obtain ⟨t, more, rfl, ht⟩ := h
  exact avoids_cons ht

namespace Parse

theorem items_yields {α : Type} {item : Phrase α} {p : Parse α} {closing : Punct} (bound : Nat)
    (hclosing : closing ≠ .comma) (hfirst : ∀ ts a, item ts a → BeginsOther closing ts)
    (hitem : ∀ ts a, item ts a → ts.length < bound → ∀ lastStop rest, Ends closing rest →
      Yields lastStop p ts a rest)
    {ts : Tokens} {as : List α} (h : Separated item ts as) {n : Nat} (hn : ts.length < n)
    (hbound : ts.length < bound) {lastStop : Nat} {span : Span} {rest : Tokens} :
    Yields lastStop (items p closing n) (ts ++ [⟨.punct closing, span⟩]) as rest := by
  induction h generalizing n lastStop with
  | none =>
    obtain ⟨n, rfl⟩ : ∃ m, n = m + 1 := ⟨n - 1, by omega⟩
    unfold items
    exact .take (asPunct_self closing) .pure
  | @last ts a ha =>
    obtain ⟨n, rfl⟩ : ∃ m, n = m + 1 := ⟨n - 1, by omega⟩
    unfold items
    refine .skip (((hfirst _ _ ha).append _).avoids _) ?_
    refine (hitem _ _ ha hbound _ _ ends_closing).bind ?_
    refine .skip (avoids_cons ?_) (.want (asPunct_self closing) .pure)
    simp [asPunct, hclosing]
  | @more ts a us as comma ha hus ih =>
    obtain ⟨n, rfl⟩ : ∃ m, n = m + 1 := ⟨n - 1, by omega⟩
    rw [List.length_append, List.length_cons] at hn hbound
    unfold items
    rw [List.append_assoc]
    refine .skip (((hfirst _ _ ha).append _).avoids _) ?_
    refine (hitem _ _ ha (by omega) _ _ ends_comma).bind ?_
    refine .take (asPunct_self .comma) ?_
    exact (ih (by omega) (by omega)).bind_pure

end Parse

/-- An expression begins with an identifier, or with a token that no part before it begins with. -/
theorem ExprForm.first {ts : Tokens} {e : Expr} (h : ExprForm ts e) :
    (∃ s span us, ts = ⟨.ident s, span⟩ :: us) ∨
      ∃ t us, ts = t :: us ∧ asIdent t.item = none := by
  cases h with
  | ident | call => exact .inl ⟨_, _, _, rfl⟩
  | text | number | list | dict => exact .inr ⟨_, _, rfl, rfl⟩

theorem ExprForm.begins {ts : Tokens} {e : Expr} (h : ExprForm ts e) {p : Punct}
    (hbracket : p ≠ .bracketOpen) (hbrace : p ≠ .braceOpen) : BeginsOther p ts := by
  cases h with
  | text | number | ident | call => exact ⟨_, _, rfl, rfl⟩
  | list => exact ⟨_, _, rfl, if_neg hbracket.symm⟩
  | dict => exact ⟨_, _, rfl, if_neg hbrace.symm⟩

theorem EntryForm.begins {ts : Tokens} {a : Name × Expr} (h : EntryForm ExprForm ts a) :
    BeginsOther .braceClose ts := by
  cases h with
  | entry => exact ⟨_, _, rfl, rfl⟩

theorem ArgumentForm.begins {ts : Tokens} {a : Option Name × Expr}
    (h : ArgumentForm ExprForm ts a) : BeginsOther .parenClose ts := by
  cases h with
  | positional he => exact he.begins (by decide) (by decide)
  | named => exact ⟨_, _, rfl, rfl⟩

/-- What an identifier can begin. -/
theorem ExprForm.of_ident {s : String} {span : Span} {us : Tokens} {e : Expr}
    (h : ExprForm (⟨.ident s, span⟩ :: us) e) :
    (us = [] ∧ e = .ident s span) ∨ ∃ opening ts last args,
      us = ⟨.punct .parenOpen, opening⟩ :: (ts ++ [⟨.punct .parenClose, last⟩]) ∧
      Separated (ArgumentForm ExprForm) ts args ∧
      e = .call ⟨s, span⟩ args ⟨span.start, last.stop⟩ := by
  cases h with
  | ident => exact .inl ⟨rfl, rfl⟩
  | call hargs => exact .inr ⟨_, _, _, _, rfl, hargs, rfl⟩

namespace Parse

/-- Every expression of fewer than `n` tokens is read. -/
def ReadsExprs (n : Nat) (p : Parse Expr) : Prop :=
  ∀ ts e, ExprForm ts e → ts.length < n → ∀ lastStop rest, Avoids (asPunct .parenOpen) rest →
    Yields lastStop p ts e rest

/-- The same after an identifier that has been taken. -/
def ReadsTails (n : Nat) (p : Name → Parse Expr) : Prop :=
  ∀ s span us e, ExprForm (⟨.ident s, span⟩ :: us) e → us.length < n → ∀ lastStop rest,
    Avoids (asPunct .parenOpen) rest → Yields lastStop (p ⟨s, span⟩) us e rest

theorem exprs_yields {n : Nat} {p : Parse Expr} (hp : ReadsExprs n p) {closing : Punct}
    (hclosing : closing = .parenClose ∨ closing = .bracketClose) {ts : Tokens} {es : List Expr}
    (h : Separated ExprForm ts es) (hn : ts.length < n) {lastStop : Nat} {span : Span}
    {rest : Tokens} :
    Yields lastStop (items p closing n) (ts ++ [⟨.punct closing, span⟩]) es rest := by
  refine items_yields n ?_ (fun _ _ he => he.begins ?_ ?_)
    (fun us e he hlt lastStop rest hends => hp us e he hlt lastStop rest
      (hends.avoids (by decide) ?_)) h hn hn
  all_goals obtain rfl | rfl := hclosing <;> decide

theorem entry_yields {n : Nat} {p : Parse Expr} (hp : ReadsExprs n p) {ts : Tokens}
    {a : Name × Expr} (h : EntryForm ExprForm ts a) (hn : ts.length < n) (lastStop : Nat)
    (rest : Tokens) (hrest : Ends .braceClose rest) : Yields lastStop (entry p) ts a rest := by
  cases h with
  | @entry ts e key span colon he =>
    rw [List.length_cons, List.length_cons] at hn
    have hvalue : ∀ lastStop, Yields lastStop p ts e rest := fun lastStop =>
      hp ts e he (by omega) lastStop rest (hrest.avoids (by decide) (by decide))
    exact .want rfl (.want rfl (hvalue _).bind_pure)

theorem argument_yields {n : Nat} {p : Parse Expr} {q : Name → Parse Expr} (hp : ReadsExprs n p)
    (hq : ReadsTails n q) {ts : Tokens} {a : Option Name × Expr}
    (h : ArgumentForm ExprForm ts a) (hn : ts.length < n) (lastStop : Nat) (rest : Tokens)
    (hrest : Ends .parenClose rest) : Yields lastStop (argument p q) ts a rest := by
  have hparen : Avoids (asPunct .parenOpen) rest := hrest.avoids (by decide) (by decide)
  cases h with
  | @named ts e key span colon he =>
    rw [List.length_cons, List.length_cons] at hn
    have hvalue : ∀ lastStop, Yields lastStop p ts e rest := fun lastStop =>
      hp ts e he (by omega) lastStop rest hparen
    exact .take rfl (.take rfl (hvalue _).bind_pure)
  | @positional ts e he =>
    obtain ⟨s, span, us, rfl⟩ | ⟨t, us, rfl, ht⟩ := he.first
    · rw [List.length_cons] at hn
      have hcolon : Avoids (asPunct .colon) (us ++ rest) := by
        obtain ⟨rfl, _⟩ | ⟨opening, inner, last, args, rfl, _, _⟩ := he.of_ident
        · exact hrest.avoids (by decide) (by decide)
        · exact avoids_cons rfl
      exact .take rfl (.skip hcolon (hq s span us e he (by omega) _ rest hparen).bind_pure)
    · exact .skip (avoids_cons ht) (hp _ e he hn _ rest hparen).bind_pure

mutual

theorem expr_yields (n : Nat) : ReadsExprs n (expr n) := by
  intro ts e h hn lastStop rest hrest
  match n with
  | 0 => exact absurd hn (Nat.not_lt_zero _)
  | n + 1 =>
    unfold expr
    obtain ⟨s, span, us, rfl⟩ | ⟨t, us, rfl, ht⟩ := h.first
    · rw [List.length_cons] at hn
      have htail := exprTail_yields n s span us e h (by omega)
      exact .skip (avoids_cons rfl) (.take rfl (htail _ rest hrest))
    · cases h with
      | ident | call => cases ht
      | text | number => exact .take rfl .pure
      | @list ts es first last hes =>
        rw [List.length_cons, List.length_append, List.length_singleton] at hn
        refine .skip (avoids_cons rfl) (.skip (avoids_cons rfl) (.take rfl ?_))
        exact (exprs_yields (expr_yields n) (.inr rfl) hes (by omega)).bind_stop
      | @dict ts es first last hes =>
        rw [List.length_cons, List.length_append, List.length_singleton] at hn
        refine .skip (avoids_cons rfl) (.skip (avoids_cons rfl) (.skip (avoids_cons rfl) ?_))
        refine .want rfl (items_yields n (by decide) (fun _ _ he => he.begins) ?_ hes (by omega)
          (by omega)).bind_stop
        exact fun us a ha hlt => entry_yields (expr_yields n) ha hlt

theorem exprTail_yields (n : Nat) : ReadsTails n (exprTail n) := by
  intro s span us e h hn lastStop rest hrest
  match n with
  | 0 => exact absurd hn (Nat.not_lt_zero _)
  | n + 1 =>
    unfold exprTail
    obtain ⟨rfl, rfl⟩ | ⟨opening, ts, last, args, rfl, hargs, rfl⟩ := h.of_ident
    · exact .skip hrest .pure
    · rw [List.length_cons, List.length_append, List.length_singleton] at hn
      refine .take rfl (items_yields n (by decide) (fun _ _ ha => ha.begins) ?_ hargs (by omega)
        (by omega)).bind_stop
      exact fun us a ha hlt => argument_yields (expr_yields n) (exprTail_yields n) ha hlt

end

end Parse

section Absent
variable {α β : Type} {f : Token → Option β} {ts : Tokens}

theorem GroupForm.avoids {opening closing : Punct} {item : Phrase α} {as : List α}
    (h : GroupForm opening closing item ts as) (hf : f (.punct opening) = none) : Avoids f ts := by
  cases h with
  | absent => exact avoids_nil
  | present => exact avoids_cons hf

theorem NegatedForm.avoids {b : Bool} (h : NegatedForm ts b)
    (hf : f (.keyword .negate) = none) : Avoids f ts := by
  cases h with
  | absent => exact avoids_nil
  | present => exact avoids_cons hf

/-- What follows a statement: another one, or nothing. -/
def Resumes (rest : Tokens) : Prop :=
  ∀ t ∈ rest.head?, ∃ k : Keyword, t.item = .keyword k ∧ k.startsStatement = true

theorem Resumes.avoids (h : Resumes ts)
    (hf : ∀ k : Keyword, k.startsStatement = true → f (.keyword k) = none) : Avoids f ts := by
  intro t ht
  obtain ⟨k, hk, hstarts⟩ := h t ht
  rw [hk, hf k hstarts]

theorem Resumes.avoids_punct (h : Resumes ts) (p : Punct) : Avoids (asPunct p) ts :=
  h.avoids fun _ _ => rfl

end Absent

namespace Parse
variable {α β : Type} {lastStop n : Nat} {ts us rest : Tokens} {b : β}

theorem name_bind {t : Located Token} {a : Name} (h : NameForm t a) {k : Name → Parse β}
    (hk : Yields t.span.stop (k a) us b rest) :
    Yields lastStop (name >>= k) (t :: us) b rest := by
  cases h with
  | bare | quoted => exact .want rfl hk

theorem text_yields {s : String} {span : Span} :
    Yields lastStop text [⟨.text s, span⟩] ⟨s, span⟩ rest :=
  .take rfl .pure

theorem word_yields {role : WordRole} {f : String → Option α} {w : String} {span : Span} {a : α}
    (hw : f w = some a) : Yields lastStop (word role f) [⟨.ident w, span⟩] a rest := by
  refine .want rfl ?_
  simp only [hw]
  exact .pure

theorem word_bind {role : WordRole} {f : String → Option α} {w : String} {span : Span} {a : α}
    (hw : f w = some a) {k : α → Parse β} (hk : Yields span.stop (k a) us b rest) :
    Yields lastStop (word role f >>= k) (⟨.ident w, span⟩ :: us) b rest :=
  (word_yields hw).bind hk

/-- Items between brackets, if the opening one is there. -/
theorem group_yields {opening closing : Punct} {item : Phrase α} {p : Parse α} {as : List α}
    (h : GroupForm opening closing item ts as) (hrest : Avoids (asPunct opening) rest)
    (hitems : ∀ us, Separated item us as → us.length < ts.length → ∀ lastStop span,
      Yields lastStop (items p closing n) (us ++ [⟨.punct closing, span⟩]) as rest) :
    Yields lastStop
      (punct? opening >>= fun o => if o.isSome then items p closing n else pure []) ts as rest := by
  cases h with
  | absent => exact .skip hrest .pure
  | present h =>
    refine .take (asPunct_self opening) (hitems _ h ?_ _ _)
    rw [List.length_cons, List.length_append]
    omega

theorem args_yields {as : List Expr} (h : ArgsForm ts as) (hn : ts.length < n)
    (hrest : Avoids (asPunct .parenOpen) rest) : Yields lastStop (args n) ts as rest :=
  group_yields h hrest fun us has hlt lastStop span =>
    exprs_yields (expr_yields n) (.inl rfl) has (by omega)

theorem tags_yields {as : TagList} (h : TagsForm ts as) (hn : ts.length < n)
    (hrest : Avoids (asPunct .braceOpen) rest) : Yields lastStop (tags n) ts as rest := by
  refine group_yields h hrest fun us has hlt lastStop span => ?_
  refine items_yields n (by decide) (fun _ _ ha => ?_) (fun us a ha hlt lastStop rest _ => ?_)
    has (by omega) (Nat.lt_trans hlt hn)
  · cases ha with
    | tag => exact ⟨_, _, rfl, rfl⟩
  · cases ha with
    | tag => exact .want rfl (.want rfl (.want rfl .pure))

theorem target_yields {o : Option Name} (h : TargetForm ts o)
    (hrest : Avoids (asPunct .atSign) rest) : Yields lastStop target ts o rest := by
  cases h with
  | absent => exact .skip hrest .pure
  | present => exact .take rfl (.want rfl .pure)

theorem negated_yields {negative : Bool} (h : NegatedForm ts negative)
    (hrest : Avoids (asKeyword .negate) rest) : Yields lastStop negated ts negative rest := by
  cases h with
  | absent => exact .skip hrest .pure
  | present => exact .take rfl .pure

theorem event_yields {st : Statement} (h : EventForm ts st) (hrest : Resumes rest) :
    Yields lastStop event ts st rest := by
  cases h with
  | plain hname =>
    exact name_bind hname (.skip (hrest.avoids fun _ _ => rfl) .pure)
  | ofCategory hfirst hcategory haction =>
    refine name_bind hfirst ?_
    cases haction with
    | bare | quoted =>
      refine .take rfl ?_
      simp only [hcategory]
      exact .pure

theorem kind_yields {o : Option Kind} (h : KindForm ts o) (hrest : Resumes rest) :
    Yields lastStop kind ts o rest := by
  cases h with
  | absent => exact .skip (hrest.avoids_punct _) .pure
  | present hkind => exact .take rfl (word_yields hkind).bind_pure

theorem declaration_yields {st : Statement} (h : DeclarationForm ts st) (hrest : Resumes rest) :
    Yields lastStop declaration ts st rest := by
  cases h with
  | declaration hscope hname hkind =>
    exact word_bind hscope (name_bind hname (kind_yields hkind hrest).bind_pure)

/-- The parts that most statements end with. -/
theorem argsTags_yields {args : List Expr} {tagList : TagList} {g : List Expr → TagList → β}
    (hargs : ArgsForm ts args) (htags : TagsForm us tagList) (hts : ts.length < n)
    (hus : us.length < n) (hrest : Resumes rest) :
    Yields lastStop (Parse.args n >>= fun args => tags n >>= fun tags => pure (g args tags))
      (ts ++ us) (g args tagList) rest := by
  refine (args_yields hargs hts ?_).bind (tags_yields htags hus (hrest.avoids_punct _)).bind_pure
  exact (htags.avoids rfl).append (hrest.avoids_punct _)

theorem action_yields {line : ActionLine} (h : ActionForm ts line) (hn : ts.length < n)
    (hrest : Resumes rest) : Yields lastStop (action n) ts line rest := by
  cases h with
  | action hcategory haction htarget hargs htags =>
    simp only [List.length_cons, List.length_append] at hn
    refine word_bind hcategory (name_bind haction ?_)
    refine (target_yields htarget ?_).bind
      (argsTags_yields hargs htags (by omega) (by omega) hrest)
    exact ((hargs.avoids rfl).append (htags.avoids rfl)).append (hrest.avoids_punct _)

theorem condition_yields {line : ConditionLine} (h : ConditionForm ts line) (hn : ts.length < n)
    (hrest : Resumes rest) : Yields lastStop (condition n) ts line rest := by
  cases h with
  | condition hcategory hnegated haction htarget hargs htags =>
    simp only [List.length_cons, List.length_append] at hn
    refine word_bind hcategory ((negated_yields hnegated ?_).bind (name_bind haction ?_))
    · cases haction <;> exact avoids_cons rfl
    · refine (target_yields htarget ?_).bind
        (argsTags_yields hargs htags (by omega) (by omega) hrest)
      exact ((hargs.avoids rfl).append (htags.avoids rfl)).append (hrest.avoids_punct _)

theorem loop_yields {line : LoopLine} (h : LoopForm ts line) (hn : ts.length < n)
    (hrest : Resumes rest) : Yields lastStop (loop n) ts line rest := by
  cases h with
  | @loop t action ss subAction ns negative us args vs tagList haction hsub hnegated hargs htags =>
    simp only [List.length_cons, List.length_append] at hn
    refine name_bind haction ?_
    have hnegate : ∀ k : Keyword, k.startsStatement = true →
        asKeyword .negate (.keyword k) = none :=
      fun k hk => if_neg (of_decide_eq_true hk)
    have htail : ∀ lastStop, Yields lastStop
        (negated >>= fun negated => Parse.args n >>= fun args => tags n >>= fun tags =>
          pure { action, subAction, negated, args, tags })
        (ns ++ (us ++ vs)) (LoopLine.mk action subAction negative args tagList) rest := by
      intro lastStop
      refine (negated_yields hnegated ?_).bind
        (argsTags_yields hargs htags (by omega) (by omega) hrest)
      exact ((hargs.avoids rfl).append (htags.avoids rfl)).append (hrest.avoids hnegate)
    cases hsub with
    | absent =>
      refine .skip (Avoids.append ?_ (hrest.avoids fun _ _ => rfl)) (htail _)
      exact (hnegated.avoids rfl).append ((hargs.avoids rfl).append (htags.avoids rfl))
    | present hname =>
      cases hname with
      | bare | quoted => exact .take rfl (htail _)

theorem definition_yields {line : DefinitionLine} (h : DefinitionForm ts line)
    (hn : ts.length < n) (hrest : Resumes rest) : Yields lastStop (definition n) ts line rest := by
  cases h with
  | definition hargs htags =>
    simp only [List.length_cons, List.length_append] at hn
    exact .want rfl (argsTags_yields hargs htags (by omega) (by omega) hrest)

theorem statement_yields {k : Keyword} {st : Statement} (h : BodyForm k ts st)
    (hn : ts.length < n) (hrest : Resumes rest) :
    Yields lastStop (statement n k) ts st rest := by
  cases h with
  | event h => exact event_yields h hrest
  | declare h => exact declaration_yields h hrest
  | action h => exact (action_yields h hn hrest).map
  | call | start => exact text_yields.map
  | ifThen h | ifElse h => exact (condition_yields h hn hrest).map
  | otherwise | close => exact .pure
  | loop h => exact (loop_yields h hn hrest).map
  | function h | process h => exact (definition_yields h hn hrest).map

theorem startsStatement_of_body {k : Keyword} {st : Statement} (h : BodyForm k ts st) :
    k.startsStatement = true := by
  cases h <;> rfl

theorem resumes_of_script {script : List (Located Statement)} (h : ScriptForm ts script) :
    Resumes ts := by
  cases h with
  | empty => simp [Resumes]
  | statement hst =>
    cases hst with
    | statement hbody =>
      intro t ht
      obtain rfl := Option.some.inj ht
      exact ⟨_, rfl, startsStatement_of_body hbody⟩

theorem statements_yields {script : List (Located Statement)} (h : ScriptForm ts script)
    {size : Nat} (hsize : ts.length < size) (hn : ts.length < n) :
    Yields lastStop (statements size n) ts script [] := by
  induction h generalizing n lastStop with
  | empty =>
    obtain ⟨n, rfl⟩ : ∃ m, n = m + 1 := ⟨n - 1, by omega⟩
    exact fun tried => ⟨tried, rfl⟩
  | @statement ts st us script hst hus ih =>
    obtain ⟨n, rfl⟩ : ∃ m, n = m + 1 := ⟨n - 1, by omega⟩
    cases hst with
    | @statement k ts st span hbody =>
      simp only [List.length_append, List.length_cons] at hn hsize
      have hresumes : Resumes (us ++ []) := by
        rw [List.append_nil]
        exact resumes_of_script hus
      unfold statements
      refine .atEnd (.want (if_pos (startsStatement_of_body hbody)) ?_)
      refine (statement_yields hbody (by omega) hresumes).bind ?_
      exact .stop (ih (by omega) (by omega)).bind_pure

end Parse

end BlockTemplate.Script
