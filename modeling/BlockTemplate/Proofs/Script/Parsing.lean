import BlockTemplate.Proofs.Script.Agreement
import BlockTemplate.Proofs.Script.Cursor
import BlockTemplate.Proofs.Script.Evaluation

/-! Where the parts of a script stand: each statement holds the places of all that is written in
it. -/
namespace BlockTemplate.Script

theorem placesOf_eq (items : List Expr) : placesOf items = items.flatMap Expr.places := by
  induction items with
  | nil => rfl
  | cons e rest ih => simp [placesOf, ih]

theorem entryPlaces_eq (entries : List (Name × Expr)) :
    entryPlaces entries = entries.flatMap fun entry => entry.1.span :: entry.2.places := by
  induction entries with
  | nil => rfl
  | cons entry rest ih => simp [entryPlaces, ih]

theorem argPlaces_eq (args : List (Option Name × Expr)) : argPlaces args =
    args.flatMap fun arg => (arg.1.map (·.span)).toList ++ arg.2.places := by
  induction args with
  | nil => rfl
  | cons arg rest ih =>
    obtain ⟨key, e⟩ := arg
    cases key <;> simp [argPlaces, ih]

namespace Parse
variable {α : Type} {cut : Nat → Prop} {last : Nat} {known : List Span}

theorem punct?_finds (p : Punct) :
    Finds cut last known (punct? p) fun o => o.toList.map (·.span) ++ known :=
  .take? _ _

theorem punct?_skips (p : Punct) : Finds cut last known (punct? p) fun _ => known :=
  (punct?_finds p).mono (List.Subset.refl _) fun _ => List.subset_append_right _ _

theorem punct_finds (p : Punct) : Finds cut last known (punct p) fun u => u.span :: known :=
  .orRefuse _ _

theorem ident_finds : Finds cut last known ident fun w => w.span :: known := .orRefuse _ _

theorem text_finds : Finds cut last known text fun w => w.span :: known := .orRefuse _ _

theorem name_finds : Finds cut last known name fun w => w.span :: known := .orRefuse _ _

theorem word_finds (role : WordRole) (f : String → Option α) :
    Finds cut last known (word role f) fun _ => known := by
  refine ident_finds.bind fun w => ?_
  split
  · exact .pure (List.subset_cons_self _ _)
  · exact .unknownWord List.mem_cons_self

theorem items_finds {item : Parse α} {found : α → List Span} (closing : Punct)
    (hitem : ∀ known, Finds cut last known item fun a => found a ++ known) (n : Nat) :
    ∀ known, Finds cut last known (items item closing n) fun as => as.flatMap found ++ known := by
  induction n with
  | zero => exact fun _ => .refuse
  | succ n ih =>
    intro known
    refine (punct?_skips closing).bind fun o => ?_
    split
    · exact .pure (by simp)
    · refine (hitem _).bind fun first => ?_
      refine (punct?_skips .comma).bind fun comma => ?_
      split
      · refine (ih _).bind fun others => .pure ?_
        intro s hs
        grind
      · refine (punct_finds closing).bind fun _ => .pure ?_
        simp

theorem argument_finds {value : Parse Expr} {afterIdent : Name → Parse Expr}
    (hvalue : ∀ known, Finds cut last known value fun e => e.places ++ known)
    (hident : ∀ known head, Finds cut last (head.span :: known) (afterIdent head)
      fun e => e.places ++ known) :
    Finds cut last known (argument value afterIdent) fun arg =>
      (arg.1.map (·.span)).toList ++ arg.2.places ++ known := by
  refine (Finds.take? _ _).bind fun o => ?_
  cases o with
  | none => exact (hvalue _).bind fun e => .pure (by simp)
  | some head =>
    refine (punct?_skips .colon).bind fun colon => ?_
    split
    · refine (hvalue _).bind fun e => .pure ?_
      intro s hs
      simp at hs ⊢
      grind
    · exact (hident known head).bind fun e => .pure (by simp)

theorem entry_finds {value : Parse Expr}
    (hvalue : ∀ known, Finds cut last known value fun e => e.places ++ known) :
    Finds cut last known (entry value) fun entry => entry.1.span :: entry.2.places ++ known := by
  refine text_finds.bind fun key => ?_
  refine (punct_finds .colon).bind fun colon => ?_
  refine (hvalue _).bind fun e => .pure ?_
  intro s hs
  grind

mutual

theorem expr_finds (n : Nat) (known : List Span) :
    Finds cut last known (expr n) fun e => e.places ++ known := by
  match n with
  | 0 => exact .refuse
  | n + 1 =>
    unfold expr
    refine (Finds.takeMaking _ (fun literal => (literal.item literal.span).places) ?_).bind
      fun literal => ?_
    · intro t f span hf
      cases t <;> cases hf <;> simp [Expr.places]
    cases literal with
    | some literal => exact .pure (by simp)
    | none =>
      refine (Finds.take? _ _).bind fun head => ?_
      cases head with
      | some head => exact exprTail_finds n known head
      | none =>
        refine (punct?_finds .bracketOpen).bind fun bracket => ?_
        cases bracket with
        | some opening =>
          refine (items_finds .bracketClose (expr_finds n) n _).bind fun list => ?_
          refine .stop opening.span (by simp) fun stop => .pure ?_
          intro s hs
          simp [Expr.places, placesOf_eq] at hs ⊢
          grind
        | none =>
          refine (punct_finds .braceOpen).bind fun opening => ?_
          refine (items_finds .braceClose (fun known => entry_finds (expr_finds n)) n _).bind
            fun entries => ?_
          refine .stop opening.span (by simp) fun stop => .pure ?_
          intro s hs
          simp [Expr.places, entryPlaces_eq] at hs ⊢
          grind

theorem exprTail_finds (n : Nat) (known : List Span) (head : Name) :
    Finds cut last (head.span :: known) (exprTail n head) fun e => e.places ++ known := by
  match n with
  | 0 => exact .refuse
  | n + 1 =>
    unfold exprTail
    refine (punct?_skips .parenOpen).bind fun o => ?_
    split
    · refine (items_finds .parenClose (fun known => argument_finds (expr_finds n)
        (exprTail_finds n)) n _).bind fun args => ?_
      refine .stop head.span (by simp) fun stop => .pure ?_
      intro s hs
      simp [Expr.places, argPlaces_eq] at hs ⊢
      grind
    · exact .pure (by simp [Expr.places])

end

theorem args_finds (n : Nat) :
    Finds cut last known (args n) fun list => placesOf list ++ known := by
  refine (punct?_skips .parenOpen).bind fun o => ?_
  split
  · simpa only [placesOf_eq] using items_finds .parenClose (expr_finds n) n known
  · exact .pure (by simp [placesOf])

theorem tag_finds : Finds cut last known tag fun _ => known := by
  refine text_finds.bind fun key => ?_
  refine (punct_finds .equals).bind fun _ => ?_
  refine text_finds.bind fun option => .pure ?_
  intro s hs
  grind

theorem tags_finds (n : Nat) : Finds cut last known (tags n) fun _ => known := by
  refine (punct?_skips .braceOpen).bind fun o => ?_
  split
  · have hitem : ∀ known, Finds cut last known tag fun _ => [] ++ known := fun _ => tag_finds
    exact (items_finds .braceClose hitem n known).mono (List.Subset.refl _) fun _ =>
      List.subset_append_right _ _
  · exact .pure (List.Subset.refl _)

theorem target_finds :
    Finds cut last known target fun t => (t.map (·.span)).toList ++ known := by
  refine (punct?_skips .atSign).bind fun o => ?_
  split
  · exact ident_finds.bind fun w => .pure (by simp)
  · exact .pure (by simp)

theorem name?_finds : Finds cut last known name? fun _ => known :=
  (Finds.take? _ _).mono (List.Subset.refl _) fun _ => List.subset_append_right _ _

theorem negated_finds : Finds cut last known negated fun _ => known := by
  refine (Finds.take? _ _).bind fun o => .pure ?_
  exact List.subset_append_right _ _

/-- A statement that evaluates nothing has no places to blame. -/
theorem subset_of_plain {st : Statement} {more : List Span} (hargs : st.args = [])
    (htarget : st.target? = none) (h : known ⊆ more) : st.places ++ known ⊆ more := by
  simpa [Statement.places, hargs, htarget, placesOf] using h

theorem event_finds : Finds cut last known event fun st => st.places ++ known := by
  refine name_finds.bind fun first => ?_
  refine name?_finds.bind fun o => ?_
  cases o with
  | none => exact .pure (subset_of_plain rfl rfl (List.subset_cons_self _ _))
  | some action =>
    dsimp only
    split
    · exact .pure (subset_of_plain rfl rfl (List.subset_cons_self _ _))
    · exact .unknownWord List.mem_cons_self

theorem kind_finds : Finds cut last known kind fun _ => known := by
  refine (punct?_skips .colon).bind fun o => ?_
  split
  · exact (word_finds _ _).bind fun kind => .pure (List.Subset.refl _)
  · exact .pure (List.Subset.refl _)

theorem declaration_finds : Finds cut last known declaration fun st => st.places ++ known := by
  refine (word_finds _ _).bind fun scope => ?_
  refine name_finds.bind fun name => ?_
  exact kind_finds.bind fun kind => .pure (subset_of_plain rfl rfl (List.subset_cons_self _ _))

section Lines
variable (n : Nat)

theorem action_finds :
    Finds cut last known (action n) fun line => (Statement.action line).places ++ known := by
  refine (word_finds _ _).bind fun category => ?_
  refine name_finds.bind fun action => ?_
  refine target_finds.bind fun target => ?_
  refine (args_finds n).bind fun args => ?_
  refine (tags_finds n).bind fun tags => .pure ?_
  intro s hs
  simp [Statement.places, Statement.args, Statement.target?] at hs ⊢
  grind

theorem condition_finds : Finds cut last known (condition n) fun line =>
    placesOf line.args ++ (line.target.map (·.span)).toList ++ known := by
  refine (word_finds _ _).bind fun category => ?_
  refine negated_finds.bind fun negated => ?_
  refine name_finds.bind fun action => ?_
  refine target_finds.bind fun target => ?_
  refine (args_finds n).bind fun args => ?_
  refine (tags_finds n).bind fun tags => .pure ?_
  intro s hs
  simp at hs ⊢
  grind

theorem loop_finds : Finds cut last known (loop n) fun line => placesOf line.args ++ known := by
  refine name_finds.bind fun action => ?_
  refine name?_finds.bind fun subAction => ?_
  refine negated_finds.bind fun negated => ?_
  refine (args_finds n).bind fun args => ?_
  refine (tags_finds n).bind fun tags => .pure ?_
  simp

theorem definition_finds :
    Finds cut last known (definition n) fun line => placesOf line.args ++ known := by
  refine text_finds.bind fun name => ?_
  refine (args_finds n).bind fun args => ?_
  refine (tags_finds n).bind fun tags => .pure ?_
  simp

theorem statement_finds (k : Keyword) :
    Finds cut last known (statement n k) fun st => st.places ++ known := by
  cases k with
  | event => exact event_finds
  | declare => exact declaration_finds
  | action => exact (action_finds n).map fun _ => List.Subset.refl _
  | call =>
    exact text_finds.map fun _ => subset_of_plain rfl rfl (List.subset_cons_self _ _)
  | start =>
    exact text_finds.map fun _ => subset_of_plain rfl rfl (List.subset_cons_self _ _)
  | ifThen => exact (condition_finds n).map fun _ => List.Subset.refl _
  | ifElse => exact (condition_finds n).map fun _ => List.Subset.refl _
  | otherwise => exact .pure (subset_of_plain rfl rfl (List.Subset.refl _))
  | close => exact .pure (subset_of_plain rfl rfl (List.Subset.refl _))
  | loop =>
    refine (loop_finds n).map fun line => ?_
    simp [Statement.places, Statement.target?, Statement.args]
  | function =>
    refine (definition_finds n).map fun line => ?_
    simp [Statement.places, Statement.target?, Statement.args]
  | process =>
    refine (definition_finds n).map fun line => ?_
    simp [Statement.places, Statement.target?, Statement.args]
  | negate => exact .refuse

end Lines

end Parse

/-- A statement at a sound place, with all that can be blamed in it inside this place. -/
structure Placed (cut : Nat → Prop) (st : Located Statement) : Prop where
  sound : st.span.Sound cut
  inside : ∀ s ∈ st.item.places, s.Inside cut st.span.start st.span.stop

theorem Parse.statements_placed {cut : Nat → Prop} {last : Nat} (size n : Nat) (c : Cursor)
    (hc : c.Sound cut last) :
    Meets (fun r : List (Located Statement) × Cursor => ∀ st ∈ r.1, Placed cut st)
      (Refusal.Sound cut last) (statements size n c) := by
  induction n generalizing c with
  | zero => exact hc.refuse
  | succ n ih =>
    have hend : Meets (fun r : Bool × Cursor => r.2 = c) (Refusal.Sound cut last) (atEnd c) := by
      rw [atEnd_eq]
      rfl
    refine hend.bind ?_
    rintro ⟨ended, c'⟩ hsame
    obtain rfl : c' = c := hsame
    cases ended with
    | true => exact fun st hst => absurd hst (by simp)
    | false =>
      refine Meets.bind (Finds.orRefuse _ _ c' c'.lastStop hc (Nat.le_refl _)
        (fun s hs => absurd hs List.not_mem_nil)) ?_
      rintro ⟨first, c₁⟩ ⟨hc₁, hle, hfirst⟩
      have hfirst := hfirst first.span List.mem_cons_self
      have hlow : first.span.start ≤ c₁.lastStop :=
        Nat.le_trans hfirst.sound.ordered hfirst.high
      refine Meets.bind (statement_finds size first.item c₁ first.span.start hc₁ hlow
        (fun s hs => absurd hs List.not_mem_nil)) ?_
      rintro ⟨item, c₂⟩ ⟨hc₂, hle₂, hplaces⟩
      have hplaced : Placed cut ⟨item, ⟨first.span.start, c₂.lastStop⟩⟩ :=
        ⟨⟨Nat.le_trans hlow hle₂, hfirst.sound.start, hc₂.cutStop⟩, by simpa using hplaces⟩
      refine Meets.bind (ih c₂ hc₂) ?_
      rintro ⟨others, c₃⟩ hothers
      exact List.forall_mem_cons.2 ⟨hplaced, hothers⟩

/-- Where the errors of reading a source stand. Where the source ends too early, the place goes from
its length to the end of its last token. -/
def ScriptError.PlacedIn (source : String) : ScriptError → Prop
  | .unread (.unexpected none _) span => span = ⟨source.utf8ByteSize, tokensEnd source⟩
  | e => e.span.Sound (Cut source)

theorem Refusal.Alike.sound {r other : Refusal} {cut : Nat → Prop} {last : Nat} (h : r.Alike other)
    (hother : other.Sound cut last) : r.Sound cut last := by
  cases h with
  | @unexpected found => cases found <;> exact hother
  | unknownWord => exact hother

theorem Refusal.Sound.toError {source : String} {r : Refusal}
    (h : r.Sound (Cut source) (tokensEnd source)) :
    (r.toError source.utf8ByteSize).PlacedIn source := by
  cases r with
  | unexpected found lastStop tried =>
    cases found with
    | none =>
      obtain rfl : lastStop = tokensEnd source := h
      rfl
    | some t => exact h
  | unknownWord role word => exact h

/-- The cursor at the start of a source. -/
theorem cursor_sound (source : String) : Cursor.Sound (Cut source) (tokensEnd source)
    (startOf source.utf8ByteSize (tokensOf (lex source))) := by
  have hordered := tokensOf_ordered (lex_ordered source)
  have hzero : Cut source 0 := cut_take source 0
  cases htokens : tokensOf (lex source) with
  | nil => exact ⟨trivial, cut_length source, by simp [startOf, tokensEnd, htokens, lastStopOf]⟩
  | cons t rest =>
    rw [htokens] at hordered
    exact ⟨hordered, hzero, by simp [startOf, tokensEnd, htokens]⟩

theorem parse_meets (source : String) :
    Meets (fun script => ∀ st ∈ script, Placed (Cut source) st)
      (fun errors => ∀ e ∈ errors, e.PlacedIn source) (parse source) := by
  unfold parse
  dsimp only
  split
  · have hstatements := Parse.statements_placed ((tokensOf (lex source)).length + 1)
      ((tokensOf (lex source)).length + 1) _ (cursor_sound source)
    have hagrees := parseTokens_agrees source.utf8ByteSize (tokensOf (lex source))
    revert hstatements hagrees
    cases Parse.statements _ _ (startOf source.utf8ByteSize (tokensOf (lex source))) with
    | ok r =>
      intro hstatements hagrees
      rw [show parseTokens _ _ = .ok r.1 from hagrees]
      exact hstatements
    | error r =>
      rintro hstatements ⟨kept, halike, herror⟩
      rw [herror]
      exact List.forall_mem_singleton.2 (halike.sound hstatements).toError
  · intro e he
    obtain ⟨text, span, rfl, hspan⟩ := unreadableOf_sound (lex_ordered source) e he
    exact hspan

end BlockTemplate.Script
