import BlockTemplate.Proofs.Script.Viability

/-! Whatever is read has the form the grammar gives it, and a parser that stops has taken nothing
that could not be completed. -/
namespace BlockTemplate.Script

/-- Items and the closing bracket after them. -/
def ClosedForm {α : Type} (item : Phrase α) (closing : Punct) : Phrase (List α) := fun ts as =>
  ∃ us span, ts = us ++ [⟨.punct closing, span⟩] ∧ Separated item us as

namespace ClosedForm
variable {α : Type} {item : Phrase α} {closing : Punct} {ts us : Tokens} {a : α} {as : List α}
  {span : Span}

theorem none : ClosedForm item closing [⟨.punct closing, span⟩] [] := ⟨[], span, rfl, .none⟩

theorem last (ha : item ts a) : ClosedForm item closing (ts ++ [⟨.punct closing, span⟩]) [a] :=
  ⟨ts, span, rfl, .last ha⟩

theorem more (ha : item ts a) (has : ClosedForm item closing us as) :
    ClosedForm item closing (ts ++ ⟨.punct .comma, span⟩ :: us) (a :: as) := by
  obtain ⟨vs, close, rfl, hvs⟩ := has
  exact ⟨ts ++ ⟨.punct .comma, span⟩ :: vs, close, by simp, .more ha hvs⟩

end ClosedForm

theorem nameForm_of_asName {t : Located Token} {s : String} (h : asName t.item = some s) :
    NameForm t ⟨s, t.span⟩ := by
  obtain ⟨item, span⟩ := t
  cases item <;> cases h
  · exact .bare
  · exact .quoted

theorem length_lt_of_cons {α : Type} {x : α} {xs ys : List α} (h : xs = x :: ys) :
    ys.length < xs.length := by
  rw [h]
  exact Nat.lt_succ_self _

namespace Parse

theorem items_reads {α : Type} {item : Phrase α} (closing : Punct) (p : Nat → Parse α) (c : Cursor)
    (hp : ∀ d : Cursor, d.rest.length ≤ c.rest.length → Reads false item p d) :
    Reads false (ClosedForm item closing) (fun n => items (p n) closing (n + 1)) c := by
  have hlast : ∀ ts a, item ts a → Viable (after (ClosedForm item closing) ts) [] :=
    fun ts a ha => viable_after_nil.2 (viable_with [.punct closing] (by simp) (.last ha))
  unfold items
  refine .take ?_ (fun t rest _ hc ht => ?_) fun tried => ?_
  · exact List.forall_mem_singleton.2 (viable_of_form .none)
  · rw [eq_punct_of_asPunct ht]
    exact .pure .none
  refine .bind (hp _ (Nat.le_refl _)) hlast fun ts a d ha hd _ => ?_
  refine .take ?_ (fun t rest _ hrest ht => ?_) fun tried => ?_
  · refine List.forall_mem_singleton.2 (viable_after.2 ?_)
    refine viable_with (a := [a]) [.punct closing] (by simp) ?_
    simpa using ClosedForm.more ha .none
  · have hshorter : rest.length < c.rest.length := by
      have hlength : c.rest.length = (ts ++ d.rest).length := congrArg List.length hd
      rw [hrest, List.length_append, List.length_cons] at hlength
      omega
    have hitems := items_reads closing (fun n => p (n + 1)) ⟨rest, t.span.stop, []⟩
      fun d hd => (hp d (Nat.le_trans hd (Nat.le_of_lt hshorter))).bounded (g := (· + 1))
        Nat.le_succ
    rw [eq_punct_of_asPunct ht]
    exact hitems.bind_pure fun us as has => .more ha has
  · refine .want ?_ (hlast ts a ha) fun t rest _ _ ht => ?_
    · exact List.forall_mem_singleton.2 (viable_after.2 (viable_of_form (.last ha)))
    · rw [eq_punct_of_asPunct ht]
      exact .pure (.last ha)
termination_by c.rest.length

/-- Items up to the closing bracket, which ends the place of what they make up. -/
theorem closed_reads {α β : Type} {item : Phrase α} {whole : Phrase β} {closing : Punct}
    {p : Nat → Parse α} {c : Cursor} {g : List α → Nat → β}
    (hp : ∀ d : Cursor, d.rest.length ≤ c.rest.length → Reads false item p d)
    (hg : ∀ ts as last, Separated item ts as →
      whole (ts ++ [⟨.punct closing, last⟩]) (g as last.stop)) :
    Reads false whole
      (fun n => items (p n) closing (n + 1) >>= fun as => stop >>= fun e => pure (g as e)) c := by
  refine .bind (items_reads closing p c hp) ?_ ?_
  · rintro _ as ⟨ts, last, rfl, has⟩
    exact viable_after_nil.2 (viable_of_form (hg ts as last has))
  · rintro _ as d ⟨ts, last, rfl, has⟩ _ hstop
    rw [lastStopOf_append] at hstop
    refine .stop (.pure ?_)
    rw [hstop, after, List.append_nil]
    exact hg ts as last has

theorem entry_reads {p : Nat → Parse Expr} {c : Cursor}
    (hp : ∀ d : Cursor, d.rest.length ≤ c.rest.length → Reads false ExprForm p d) :
    Reads false (EntryForm ExprForm) (fun n => entry (p n)) c := by
  unfold entry
  refine .want (by simp) ?_ fun t rest s hc ht => ?_
  · exact viable_with [.text "", .punct .colon, .text ""] (by simp) (.entry .text)
  rw [eq_text_of_asText ht]
  refine .want (List.forall_mem_singleton.2 ?_) ?_ fun u others _ hrest hu => ?_
  · exact viable_with [.text ""] (by simp) (.entry .text)
  · exact viable_with [.punct .colon, .text ""] (by simp) (.entry .text)
  rw [eq_punct_of_asPunct hu]
  have hlength := Nat.le_of_lt (Nat.lt_trans (length_lt_of_cons hrest) (length_lt_of_cons hc))
  exact .bind_pure ((hp _ hlength).bounded (g := (· + 2)) (fun n => Nat.le_add_right n 2))
    fun us e he => .entry he

theorem argument_reads {p : Nat → Parse Expr} {q : Nat → Name → Parse Expr} {c : Cursor}
    (hp : ∀ d : Cursor, d.rest.length ≤ c.rest.length → Reads false ExprForm p d)
    (hq : ∀ s span (d : Cursor), d.rest.length ≤ c.rest.length →
      Reads false (next ExprForm ⟨.ident s, span⟩) (fun n => q n ⟨s, span⟩) d) :
    Reads false (ArgumentForm ExprForm) (fun n => argument (p n) (q n)) c := by
  unfold argument
  refine .take (by simp) (fun t rest s hc ht => ?_) fun tried => ?_
  · rw [eq_ident_of_asIdent ht]
    have hlength : rest.length ≤ c.rest.length := Nat.le_of_lt (length_lt_of_cons hc)
    refine .take (List.forall_mem_singleton.2 ?_) (fun u others _ hrest hu => ?_) fun tried => ?_
    · exact viable_with [.text ""] (by simp) (.named .text)
    · rw [eq_punct_of_asPunct hu]
      have hlength := Nat.le_trans (Nat.le_of_lt (length_lt_of_cons hrest)) hlength
      exact .bind_pure ((hp _ hlength).bounded (g := (· + 2)) (fun n => Nat.le_add_right n 2))
        fun us e he => .named he
    · exact .bind_pure ((hq s t.span _ hlength).bounded (g := (· + 1)) Nat.le_succ)
        fun us e he => .positional he
  · exact .bind_pure (hp _ (Nat.le_refl _)) fun us e he => .positional he

mutual

theorem expr_reads (c : Cursor) : Reads false ExprForm (fun n => expr (n + 1)) c := by
  have hviable : Viable ExprForm [] := viable_with [.text ""] (by simp) .text
  unfold expr
  refine .take (by simp) (fun t rest make hc ht => ?_) fun _ => ?_
  · refine .pure ?_
    obtain ⟨item, span⟩ := t
    cases item <;> cases ht
    · exact .text
    · exact .number
  refine .take (by simp) (fun t rest s hc ht => ?_) fun _ => ?_
  · have hshorter : rest.length < c.rest.length := length_lt_of_cons hc
    rw [eq_ident_of_asIdent ht]
    exact exprTail_reads s t.span _
  refine .take (List.forall_mem_singleton.2 ?_) (fun t rest _ hc ht => ?_) fun _ => ?_
  · exact viable_with [.punct .bracketClose] (by simp) (.list .none)
  · have hshorter : rest.length < c.rest.length := length_lt_of_cons hc
    rw [eq_punct_of_asPunct ht]
    refine closed_reads (fun d hd => ?_) fun ts es last hes => .list hes
    have hd := Nat.lt_of_le_of_lt hd hshorter
    exact expr_reads d
  refine .want (List.forall_mem_singleton.2 ?_) hviable fun t rest _ hc ht => ?_
  · exact viable_with [.punct .braceClose] (by simp) (.dict .none)
  · have hshorter : rest.length < c.rest.length := length_lt_of_cons hc
    rw [eq_punct_of_asPunct ht]
    refine closed_reads (fun d hd => entry_reads fun e he => ?_) fun ts es last hes => .dict hes
    have he := Nat.lt_of_le_of_lt (Nat.le_trans he hd) hshorter
    exact expr_reads e
termination_by c.rest.length

theorem exprTail_reads (s : String) (span : Span) (c : Cursor) :
    Reads false (next ExprForm ⟨.ident s, span⟩) (fun n => exprTail (n + 1) ⟨s, span⟩) c := by
  unfold exprTail
  refine .take (List.forall_mem_singleton.2 ?_) (fun t rest _ hc ht => ?_) fun _ => ?_
  · exact viable_with [.punct .parenClose] (by simp) (.call .none)
  · have hshorter : rest.length < c.rest.length := length_lt_of_cons hc
    rw [eq_punct_of_asPunct ht]
    refine closed_reads (fun d hd => argument_reads (fun e he => ?_) fun s span e he => ?_)
      fun ts args last hargs => .call hargs
    · have he := Nat.lt_of_le_of_lt (Nat.le_trans he hd) hshorter
      exact expr_reads e
    · have he := Nat.lt_of_le_of_lt (Nat.le_trans he hd) hshorter
      exact exprTail_reads s span e
  · exact .pure .ident
termination_by c.rest.length

end

theorem group_reads {α : Type} {item : Phrase α} {opening closing : Punct} {p : Nat → Parse α}
    {c : Cursor} (hp : ∀ d : Cursor, Reads false item p d) :
    Reads false (GroupForm opening closing item)
      (fun n => punct? opening >>= fun o =>
        if o.isSome then items (p n) closing (n + 1) else pure []) c := by
  refine .take (List.forall_mem_singleton.2 ?_) (fun t rest _ hc ht => ?_) fun _ => ?_
  · exact viable_with [.punct closing] (by simp) (.present .none)
  · rw [eq_punct_of_asPunct ht]
    refine ((items_reads closing p _ fun d _ => hp d).bounded (g := (· + 1)) Nat.le_succ).mono ?_
    rintro _ as ⟨ts, last, rfl, has⟩
    exact .present has
  · exact .pure .absent

theorem args_reads (c : Cursor) : Reads false ArgsForm (fun n => args (n + 1)) c :=
  group_reads expr_reads

theorem tag_reads (c : Cursor) : Reads false TagForm (fun _ => tag) c := by
  unfold tag
  refine .want (by simp) ?_ fun t rest s hc ht => ?_
  · exact viable_with [.text "", .punct .equals, .text ""] (by simp) .tag
  rw [eq_text_of_asText ht]
  refine .want (List.forall_mem_singleton.2 ?_) ?_ fun u others _ hrest hu => ?_
  · exact viable_with [.text ""] (by simp) .tag
  · exact viable_with [.punct .equals, .text ""] (by simp) .tag
  rw [eq_punct_of_asPunct hu]
  refine .want (by simp) ?_ fun v last s' hlast hv => ?_
  · exact viable_with [.text ""] (by simp) .tag
  rw [eq_text_of_asText hv]
  exact .pure .tag

theorem tags_reads (c : Cursor) : Reads false TagsForm (fun n => tags (n + 1)) c :=
  group_reads tag_reads

theorem target_reads (c : Cursor) : Reads false TargetForm (fun _ => target) c := by
  unfold target
  refine .take (List.forall_mem_singleton.2 ?_) (fun t rest _ hc ht => ?_) fun _ => .pure .absent
  · exact viable_with [.ident "player"] (by simp) .present
  rw [eq_punct_of_asPunct ht]
  refine .want (by simp) ?_ fun u others s hrest hu => ?_
  · exact viable_with [.ident "player"] (by simp) .present
  rw [eq_ident_of_asIdent hu]
  exact .pure .present

theorem negated_reads (c : Cursor) : Reads false NegatedForm (fun _ => negated) c := by
  unfold negated
  refine .take (List.forall_mem_singleton.2 ?_) (fun t rest _ hc ht => ?_) fun _ => .pure .absent
  · exact viable_of_form .present
  rw [eq_keyword_of_asKeyword ht]
  exact .pure .present

/-- A word that has to be known, and then the rest of the whole. -/
theorem word_then {α β : Type} {role : WordRole} {f : String → Option α} {whole : Phrase β}
    {k : Nat → α → Parse β} {c : Cursor} (hviable : Viable whole [])
    (hk : ∀ w span a (d : Cursor), f w = some a →
      Reads false (next whole ⟨.ident w, span⟩) (fun n => k (n + 1) a) d) :
    Reads false whole (fun n => word role f >>= k n) c := by
  unfold word
  simp only [bind_assoc]
  refine .want (by simp) hviable fun t rest w hc ht => ?_
  rw [eq_ident_of_asIdent ht]
  dsimp only
  split
  · next a ha => simpa only [pure_bind] using hk w t.span a _ ha
  · exact .unknownWord

section Viable

theorem viable_event : Viable EventForm [] :=
  viable_with [.text ""] (by simp) (.plain .quoted)

theorem viable_declaration : Viable DeclarationForm [] :=
  viable_with [.ident "local", .text ""] (by simp) (.declaration rfl .quoted .absent)

theorem viable_action : Viable ActionForm [] :=
  viable_with [.ident "player", .text ""] (by simp) (.action rfl .quoted .absent .absent .absent)

theorem viable_condition : Viable ConditionForm [] :=
  viable_with [.ident "player", .text ""] (by simp)
    (.condition rfl .absent .quoted .absent .absent .absent)

theorem viable_loop : Viable LoopForm [] :=
  viable_with [.text ""] (by simp) (.loop .quoted .absent .absent .absent .absent)

theorem viable_definition : Viable DefinitionForm [] :=
  viable_with [.text ""] (by simp) (.definition .absent .absent)

/-- Every keyword that can begin a statement begins one. -/
theorem viable_body {k : Keyword} (hk : k.startsStatement = true) : Viable (BodyForm k) [] := by
  cases k with
  | event => exact viable_event.map (g := id) fun _ _ => .event
  | declare => exact viable_declaration.map (g := id) fun _ _ => .declare
  | action => exact viable_action.map fun _ _ => .action
  | call => exact viable_with [.text ""] (by simp) .call
  | start => exact viable_with [.text ""] (by simp) .start
  | ifThen => exact viable_condition.map fun _ _ => .ifThen
  | ifElse => exact viable_condition.map fun _ _ => .ifElse
  | otherwise => exact viable_of_form .otherwise
  | close => exact viable_of_form .close
  | loop => exact viable_loop.map fun _ _ => .loop
  | function => exact viable_definition.map fun _ _ => .function
  | process => exact viable_definition.map fun _ _ => .process
  | negate => cases hk

end Viable

theorem event_reads (c : Cursor) : Reads false EventForm (fun _ => event) c := by
  unfold event
  refine .want (by simp) viable_event fun t rest s hc ht => ?_
  have hfirst := nameForm_of_asName ht
  refine .take (by simp) (fun u others s' hrest hu => ?_) fun _ => .pure (.plain hfirst)
  dsimp only
  split
  · next category hcategory =>
    exact .pure (.ofCategory hfirst hcategory (nameForm_of_asName hu))
  · exact .unknownWord

theorem kind_reads (c : Cursor) : Reads false KindForm (fun _ => kind) c := by
  unfold kind
  refine .take (List.forall_mem_singleton.2 ?_) (fun t rest _ hc ht => ?_) fun _ => .pure .absent
  · exact viable_with [.ident "text"] (by simp) (.present rfl)
  rw [eq_punct_of_asPunct ht]
  exact word_then (viable_with [.ident "text"] (by simp) (.present rfl)) fun w span kind d hw =>
    .pure (.present hw)

theorem declaration_reads (c : Cursor) : Reads false DeclarationForm (fun _ => declaration) c := by
  unfold declaration
  refine word_then viable_declaration fun w span scope d hw => ?_
  refine .want (by simp) ?_ fun t rest s hc ht => ?_
  · exact viable_with [.text ""] (by simp) (.declaration hw .quoted .absent)
  have ht := nameForm_of_asName ht
  exact .bind_pure (kind_reads _) fun us kind hkind => .declaration hw ht hkind

/-- The parts that most statements end with. -/
theorem argsTags_reads {α : Type} {whole : Phrase α} {g : List Expr → TagList → α} {m : Nat}
    {c : Cursor} (hwhole : ∀ ts us as tagList, ArgsForm ts as → TagsForm us tagList →
      whole (ts ++ us) (g as tagList)) :
    Reads false whole (fun n => args (n + m + 1) >>= fun as => tags (n + m + 1) >>= fun tagList =>
      pure (g as tagList)) c := by
  have hm : ∀ n, n ≤ n + m := fun n => Nat.le_add_right n m
  refine .bind ((args_reads c).bounded (g := (· + m)) hm) (fun ts as has => ?_) ?_
  · exact viable_of_form (hwhole ts [] as [] has .absent)
  · intro ts as d has _ _
    exact .bind_pure ((tags_reads d).bounded (g := (· + m)) hm) fun us tagList htags =>
      hwhole ts us as tagList has htags

theorem action_reads (c : Cursor) : Reads false ActionForm (fun n => action (n + 1)) c := by
  unfold action
  refine word_then viable_action fun w span category d hw => ?_
  refine .want (by simp) ?_ fun t rest s hc ht => ?_
  · exact viable_with [.text ""] (by simp) (.action hw .quoted .absent .absent .absent)
  have ht := nameForm_of_asName ht
  refine .bind (target_reads _) (fun ts target htarget => ?_) ?_
  · exact viable_of_form (.action hw ht htarget .absent .absent)
  intro ts target d htarget _ _
  exact argsTags_reads (m := 2) fun us vs as tagList has htags =>
    .action hw ht htarget has htags

theorem condition_reads (c : Cursor) :
    Reads false ConditionForm (fun n => condition (n + 1)) c := by
  unfold condition
  refine word_then viable_condition fun w span category d hw => ?_
  have hname : ∀ ns negative, NegatedForm ns negative →
      Viable (after (next ConditionForm ⟨.ident w, span⟩) ns) [] := fun ns negative hnegated =>
    viable_with [.text ""] (by simp) (.condition hw hnegated .quoted .absent .absent .absent)
  refine .bind (negated_reads _) hname ?_
  intro ns negative d hnegated _ _
  refine .want (by simp) (hname ns negative hnegated) fun t rest s hc ht => ?_
  have ht := nameForm_of_asName ht
  refine .bind (target_reads _) (fun ts target htarget => ?_) ?_
  · exact viable_of_form (.condition hw hnegated ht htarget .absent .absent)
  intro ts target d htarget _ _
  exact argsTags_reads (m := 2) fun us vs as tagList has htags =>
    .condition hw hnegated ht htarget has htags

theorem loop_reads (c : Cursor) : Reads false LoopForm (fun n => loop (n + 1)) c := by
  unfold loop
  refine .want (by simp) viable_loop fun t rest s hc ht => ?_
  have ht := nameForm_of_asName ht
  have htail : ∀ {ss subAction} (m : Nat) (d : Cursor), SubActionForm ss subAction →
      Reads false (after (next LoopForm t) ss)
        (fun n => negated >>= fun negated => args (n + m + 1) >>= fun as =>
          tags (n + m + 1) >>= fun tagList =>
            pure { action := ⟨s, t.span⟩, subAction, negated, args := as, tags := tagList }) d := by
    intro ss subAction m d hsub
    refine .bind (negated_reads _) (fun ns negative hnegated => ?_) ?_
    · exact viable_of_form (.loop ht hsub hnegated .absent .absent)
    intro ns negative e hnegated _ _
    exact argsTags_reads fun us vs as tagList has htags =>
      .loop ht hsub hnegated has htags
  refine .take (by simp) (fun u others s' hrest hu => ?_) fun _ => ?_
  · exact htail 2 _ (.present (nameForm_of_asName hu))
  · exact htail 1 _ .absent

theorem definition_reads (c : Cursor) :
    Reads false DefinitionForm (fun n => definition (n + 1)) c := by
  unfold definition
  refine .want (by simp) viable_definition fun t rest s hc ht => ?_
  rw [eq_text_of_asText ht]
  exact argsTags_reads (m := 1) fun us vs as tagList has htags => .definition has htags

theorem text_reads {α : Type} {whole : Phrase α} {g : Name → α}
    (hg : ∀ s span, whole [⟨.text s, span⟩] (g ⟨s, span⟩)) (c : Cursor) :
    Reads false whole (fun _ => text >>= fun s => pure (g s)) c := by
  refine .want (by simp) ?_ fun t rest s hc ht => ?_
  · exact viable_with [.text ""] (by simp) (hg "" ⟨0, 0⟩)
  · rw [eq_text_of_asText ht]
    exact .pure (hg s t.span)

theorem statement_reads {k : Keyword} (hk : k.startsStatement = true) (c : Cursor) :
    Reads false (BodyForm k) (fun n => statement (n + 1) k) c := by
  cases k with
  | event => exact (event_reads c).mono fun _ _ => .event
  | declare => exact (declaration_reads c).mono fun _ _ => .declare
  | action => exact (action_reads c).map fun _ _ => .action
  | call => exact text_reads (fun _ _ => .call) c
  | start => exact text_reads (fun _ _ => .start) c
  | ifThen => exact (condition_reads c).map fun _ _ => .ifThen
  | ifElse => exact (condition_reads c).map fun _ _ => .ifElse
  | otherwise => exact .pure .otherwise
  | close => exact .pure .close
  | loop => exact (loop_reads c).map fun _ _ => .loop
  | function => exact (definition_reads c).map fun _ _ => .function
  | process => exact (definition_reads c).map fun _ _ => .process
  | negate => cases hk

/-- A statement before the rest of a script. -/
theorem script_of_body {k : Keyword} {span : Span} {ts us : Tokens} {st : Statement}
    {script : List (Located Statement)} (hst : BodyForm k ts st) (h : ScriptForm us script) :
    ScriptForm (⟨.keyword k, span⟩ :: (ts ++ us))
      (⟨st, ⟨span.start, lastStopOf span.stop ts⟩⟩ :: script) :=
  .statement (.statement hst) h

theorem keyword_fits {x : Expected} (hx : x ∈ statementKeywords ++ [.endOfInput]) :
    Fits true ScriptForm [] x := by
  obtain hx | hx := List.mem_append.1 hx
  · obtain ⟨k, hk, rfl⟩ := List.mem_map.1 hx
    obtain ⟨more, st, hmore, hst⟩ := viable_body (List.mem_filter.1 hk).2
    have hscript : ScriptForm (unplaced (.keyword k) :: (more ++ [])) _ := script_of_body hst .empty
    rw [List.append_nil] at hscript
    exact ⟨more, _, hmore, hscript⟩
  · obtain rfl := List.mem_singleton.1 hx
    exact ⟨rfl, [], .empty⟩

theorem statements_reads (g : Nat → Nat) (hg : ∀ n, n ≤ g n) (c : Cursor) :
    Reads true ScriptForm (fun n => statements (g n + 1) (n + 1)) c := by
  unfold statements
  refine .atEnd ?_
  by_cases hempty : c.rest.isEmpty = true
  · simp only [hempty, if_true]
    exact .pure .empty
  simp only [hempty]
  refine .want (fun x => keyword_fits) (viable_of_form .empty) fun t rest k hc ht => ?_
  obtain ⟨heq, hk⟩ := eq_keyword_of_asStatementKeyword ht
  rw [heq]
  have hg' : ∀ n, n ≤ g (n + 1) := fun n => Nat.le_trans (Nat.le_succ n) (hg (n + 1))
  refine .bind ((statement_reads hk _).bounded (g := fun n => g (n + 1)) hg') ?_ ?_
  · exact fun ts st hst => viable_of_form (script_of_body hst .empty)
  intro ts st d hst hd hstop
  have hshorter : d.rest.length < c.rest.length := by
    have hlength := congrArg List.length hd
    simp only [List.length_append] at hlength
    have hrest := length_lt_of_cons hc
    omega
  refine .stop (.bind_pure (statements_reads (fun n => g (n + 1)) hg' d) fun us script hus => ?_)
  rw [hstop]
  exact script_of_body hst hus
termination_by c.rest.length

end Parse

end BlockTemplate.Script
