import BlockTemplate.Proofs.Emission.Blame
import BlockTemplate.Proofs.Emission.Renumbering
import BlockTemplate.Proofs.Session.Unclosed

/-! An if-else scope that is closed without its else branch is one whose else branch is empty: to
enter it right before the close changes nothing but the indices of the calls after. -/
namespace BlockTemplate

/-! How deep a session stands in what it shows. -/

theorem OpenScope.Sound.foldl_shown {o : OpenScope} (h : o.Sound) (s : HeaderState) :
    (o.shown.foldl HeaderState.next s).depth = s.depth + 1 := by
  cases helse : o.elseAt with
  | none =>
    simp only [OpenScope.shown, helse, Option.toList_none, List.map_nil, List.append_nil,
      List.cons_append, List.foldl_cons, List.foldl_append, foldl_depth _ h.body,
      foldl_depth _ h.others, HeaderState.next, Step.delta]
  | some i =>
    simp only [OpenScope.shown, helse, Option.toList_some, List.map_cons, List.map_nil,
      List.cons_append, List.foldl_cons, List.foldl_append, List.foldl_nil,
      foldl_depth _ h.others, HeaderState.next, Step.delta, foldl_depth _ h.body]
    omega

theorem foldl_shownScopes {scopes : List OpenScope} (h : ∀ o ∈ scopes, o.Sound)
    (s : HeaderState) :
    ((shownScopes scopes).foldl HeaderState.next s).depth = s.depth + scopes.length := by
  induction scopes with
  | nil => simp [shownScopes]
  | cons o rest ih =>
    rw [List.forall_mem_cons] at h
    rw [shownScopes, List.foldl_append, h.1.foldl_shown, ih h.2, List.length_cons]
    omega

namespace Session

theorem Sound.foldl_shown {s : Session} (h : s.Sound) :
    (s.shown.foldl HeaderState.next {}).depth = s.opened.length := by
  rw [Session.shown, List.foldl_append, foldl_shownScopes h.opened, foldl_depth _ h.root]
  exact Int.zero_add _

theorem run_shown_lt (calls : List SessionCall) :
    ∀ step ∈ (Session.empty.run calls).shown, step.index < calls.length := by
  intro step hstep
  rw [Sound.empty.run_shown, List.mem_append] at hstep
  obtain hstep | hstep := hstep
  · cases hstep
  · have hlt := LinearPass.index_lt hstep
    rw [length_trace] at hlt
    exact Nat.lt_of_lt_of_eq hlt (Nat.zero_add _)

/-! The call that is inserted. -/

section Insertion
variable {s : Session} {top : OpenScope} {rest : List OpenScope}

theorem close_eq (hs : s.opened = top :: rest) :
    s.accepts .close = true ∧ s.after .close = { s.skip with
      opened := rest
      declarations := s.declarations.exit }.push (top.toNode (some s.next)) := by
  simp [accepts, after, perform, close, hs, Except.isOk, Except.toBool]

theorem elseBranch_eq (hs : s.opened = top :: rest) (hkind : top.header.kind = .ifElse)
    (hin : top.inElse = false) :
    s.accepts .elseBranch = true ∧ s.after .elseBranch = { s.skip with
      opened := top.switch s.next :: rest
      declarations := s.declarations.exit.enter } := by
  simp [accepts, after, perform, elseBranch, hs, hkind, hin, Except.isOk, Except.toBool]

theorem opened_elseBranch (hs : s.opened = top :: rest) (hkind : top.header.kind = .ifElse)
    (hin : top.inElse = false) :
    (s.after .elseBranch).opened = top.switch s.next :: rest := by
  rw [(elseBranch_eq hs hkind hin).2]

/-- What a session shows once an if-else scope is closed, without and with a call that enters its
else branch. -/
theorem Sound.shown_close (h : s.Sound) (hs : s.opened = top :: rest)
    (hkind : top.header.kind = .ifElse) (hin : top.inElse = false) :
    (s.after .close).shown =
      s.shown ++ [.switched s.next .ifElse, .closed s.next .ifElse] := by
  have hfollows := (h.follows .close).shown
  rw [(close_eq hs).1] at hfollows
  rw [hfollows]
  simp [LinearPass.emitted, Session.marks, hs, OpenScope.mark, hkind, hin]

theorem Sound.shown_else_close (h : s.Sound) (hs : s.opened = top :: rest)
    (hkind : top.header.kind = .ifElse) (hin : top.inElse = false) :
    ((s.after .elseBranch).after .close).shown =
      s.shown ++ [.switched s.next .ifElse, .closed (s.next + 1) .ifElse] := by
  have hfollows := h.follows .elseBranch
  have hopened := opened_elseBranch hs hkind hin
  have hclose := (hfollows.sound.follows .close).shown
  rw [(close_eq hopened).1, hfollows.shown, (elseBranch_eq hs hkind hin).1] at hclose
  rw [hclose, after_next]
  simp [LinearPass.emitted, Session.marks, hopened, OpenScope.mark, hkind]

theorem marks_else_close (hs : s.opened = top :: rest) (hkind : top.header.kind = .ifElse)
    (hin : top.inElse = false) :
    ((s.after .elseBranch).after .close).marks = (s.after .close).marks := by
  have hopened := opened_elseBranch hs hkind hin
  rw [(close_eq hs).2, (close_eq hopened).2, push_marks, push_marks]
  rfl

/-- After the close the sessions are side by side, since all open scopes were there before. -/
theorem alongside_else_close (hs : s.opened = top :: rest) (hkind : top.header.kind = .ifElse)
    (hin : top.inElse = false) (hbelow : s.Below s.next) :
    (s.after .close).Alongside s.next ((s.after .elseBranch).after .close) := by
  have hopened := opened_elseBranch hs hkind hin
  have hsame : ∀ o ∈ rest, o.head = o.head.renumber (shiftFrom s.next) := by
    intro o ho
    have hlt := hbelow.opened o (hs ▸ List.mem_cons_of_mem _ ho)
    have helse : o.elseAt.map (shiftFrom s.next) = o.elseAt := by
      cases hat : o.elseAt with
      | none => rfl
      | some i => exact congrArg some (shiftFrom_of_lt (hlt.elseAt i hat))
    rw [ScopeHead.renumber, OpenScope.head, shiftFrom_of_lt hlt.openAt, helse]
  refine ⟨?_, ?_, ?_, ?_⟩
  · rw [after_next]
    exact Nat.le_succ _
  · rw [after_next, after_next, after_next]
  · rw [(close_eq hs).2, (close_eq hopened).2, push_heads, push_heads]
    simp only [Session.heads, List.map_map]
    exact List.map_congr_left hsame
  · rw [(close_eq hs).2, (close_eq hopened).2, push_declarations, push_declarations,
      (elseBranch_eq hs hkind hin).2]
    exact Declarations.enter_exit_live _

end Insertion

/-- Sessions side by side that are not finished are blamed for the same scope. -/
theorem Alongside.unclosed {p : Nat} {s t : Session} (h : s.Alongside p t)
    {top other : OpenScope} {rest others : List OpenScope} (hs : s.opened = top :: rest)
    (ht : t.opened = other :: others) :
    ((other :: others).getLast (List.cons_ne_nil _ _)).unclosed =
      ((top :: rest).getLast (List.cons_ne_nil _ _)).unclosed.renumber (shiftFrom p) := by
  have hlast := congrArg List.getLast? h.heads
  simp only [Session.heads, hs, ht, List.getLast?_map,
    List.getLast?_eq_some_getLast (List.cons_ne_nil _ _), Option.map_some,
    Option.some.injEq] at hlast
  have hunclosed : ∀ o : OpenScope, o.unclosed =
      .unbalancedScope o.head.openAt (.unclosed o.head.header.kind o.head.openAt) := fun _ => rfl
  rw [hunclosed, hlast]
  rfl

section TwoRuns
variable {before : List SessionCall} {top : OpenScope} {rest : List OpenScope}
  (hs : (Session.empty.run before).opened = top :: rest) (hkind : top.header.kind = .ifElse)
  (hin : top.inElse = false) (after : List SessionCall)
include hs hkind hin

theorem run_alongside :
    (Session.empty.run (before ++ .close :: after)).Alongside before.length
      (Session.empty.run (before ++ .elseBranch :: .close :: after)) := by
  have halong := alongside_else_close hs hkind hin (Below.empty.run before)
  rw [run_empty_next] at halong
  rw [run_append, run_append]
  exact halong.run after

/-- What both sessions show in the end: the same steps around the close, and later ones with
indices one higher. -/
theorem run_shown_emptyElse :
    ∃ later,
      (Session.empty.run (before ++ .close :: after)).shown = (Session.empty.run before).shown ++
        .switched before.length .ifElse :: .closed before.length .ifElse :: later ∧
      (Session.empty.run (before ++ .elseBranch :: .close :: after)).shown =
        (Session.empty.run before).shown ++ .switched before.length .ifElse ::
          .closed (before.length + 1) .ifElse ::
            later.map (·.renumber (shiftFrom before.length)) := by
  have hsound := Sound.empty.run before
  have halong := alongside_else_close hs hkind hin (Below.empty.run before)
  have hplain := (hsound.follows .close).sound
  have hswitched := ((hsound.follows .elseBranch).sound.follows .close).sound
  refine ⟨LinearPass.steps ((Session.empty.run before).after .close).marks (before.length + 1)
    (((Session.empty.run before).after .close).trace after), ?_, ?_⟩
  · rw [run_append, Session.run, hplain.run_shown, hsound.shown_close hs hkind hin, after_next,
      run_empty_next, List.append_assoc]
    rfl
  · rw [run_append, Session.run, Session.run, hswitched.run_shown,
      hsound.shown_else_close hs hkind hin, marks_else_close hs hkind hin, halong.trace,
      after_next, after_next, run_empty_next, LinearPass.steps_shift _ (Nat.le_succ _),
      List.append_assoc]
    rfl

/-- Records and errors of both sessions agree, up to the indices of later calls. -/
theorem emit_emptyElse (table : SchemaTable) (limits : Limits) :
    flatten (Session.empty.run (before ++ .elseBranch :: .close :: after)).finish.nodes >>=
        emit table limits =
      (flatten (Session.empty.run (before ++ .close :: after)).finish.nodes >>=
        emit table limits).mapError (·.renumber (shiftFrom before.length)) := by
  have halong := run_alongside hs hkind hin after
  have hplain := Sound.empty.run (before ++ .close :: after)
  have hswitched := Sound.empty.run (before ++ .elseBranch :: .close :: after)
  cases hopened : (Session.empty.run (before ++ .close :: after)).opened with
  | nil =>
    rw [hplain.flatten_finish hopened, hswitched.flatten_finish (halong.opened_nil hopened)]
    obtain ⟨later, hplainShown, hswitchedShown⟩ := run_shown_emptyElse hs hkind hin after
    -- The scope is open at its else mark, so that no definition has ended there.
    have hdepth : ((Session.empty.run before).shown.foldl HeaderState.next {}).depth ≠ 0 := by
      rw [(Sound.empty.run before).foldl_shown, hs, List.length_cons]
      omega
    have hended := HeaderState.ended_eq_none hdepth
    have hfixed : (Session.empty.run before).shown.map (·.renumber (shiftFrom before.length)) =
        (Session.empty.run before).shown := by
      refine (List.map_congr_left fun step hstep => ?_).trans (List.map_id _)
      exact Step.renumber_of_eq (shiftFrom_of_lt (run_shown_lt before step hstep))
    calc emit table limits (Session.empty.run (before ++ .elseBranch :: .close :: after)).shown
        = emit table limits ((Session.empty.run before).shown ++
            .switched (before.length + 1) .ifElse :: .closed (before.length + 1) .ifElse ::
              later.map (·.renumber (shiftFrom before.length))) := by
          rw [hswitchedShown]
          exact emit_switched table limits _ _ _ _ _ hended
      _ = emit table limits ((Session.empty.run (before ++ .close :: after)).shown.map
            (·.renumber (shiftFrom before.length))) := by
          rw [hplainShown, List.map_append, hfixed, List.map_cons, List.map_cons, Step.renumber,
            Step.renumber, shiftFrom_of_le (Nat.le_refl _)]
      _ = _ := emit_renumber _ table limits _
  | cons first others =>
    obtain ⟨other, more, hother, _⟩ := halong.opened_cons hopened
    rw [flatten_finish_opened hplain.root hopened, flatten_finish_opened hswitched.root hother,
      halong.unclosed hopened hother]
    rfl

end TwoRuns

end Session

namespace Compiler
variable (c : Compiler) (name : String)

/-- The template of a session comes from its records alone. -/
theorem compile_template (s : Session) :
    (c.compile name s).map (·.template) = do
      let records ← flatten s.finish.nodes >>= emit c.table c.settings.limits
      return ⟨{ name, author := c.settings.author }, ⟨records⟩⟩ := by
  rw [compile]
  cases flatten s.finish.nodes with
  | error e => rfl
  | ok steps =>
    simp only [bind, Except.bind]
    cases emit c.table c.settings.limits steps <;> rfl

/-- To enter the else branch of an if-else scope right before it is closed gives the same template,
or the same error at the same call, which has an index one higher if it comes after. The call is
accepted, and every call after it is answered as before. -/
theorem compile_emptyElse (before after : List SessionCall) {top : OpenScope}
    {rest : List OpenScope} (hs : (Session.empty.run before).opened = top :: rest)
    (hkind : top.header.kind = .ifElse) (helse : top.elseAt = none) :
    (c.compile name (Session.empty.run (before ++ .elseBranch :: .close :: after))).map
        (·.template) =
      ((c.compile name (Session.empty.run (before ++ .close :: after))).map
        (·.template)).mapError (·.renumber (shiftFrom before.length)) ∧
    (∀ e, c.compile name (Session.empty.run (before ++ .close :: after)) = .error e →
      ∃ i, e.index? = some i ∧ (e.renumber (shiftFrom before.length)).index? =
        some (if before.length ≤ i then i + 1 else i)) ∧
    (Session.empty.run before).accepts .elseBranch = true ∧
    (Session.empty.run (before ++ [.elseBranch, .close])).answers after =
      ((Session.empty.run (before ++ [.close])).answers after).map
        (·.mapError (·.renumber (shiftFrom before.length))) := by
  have htop : top.Branched := Session.Branched.empty.run before top (hs ▸ List.mem_cons_self)
  have hin : top.inElse = false := htop.elseAt_eq_none.1 helse
  refine ⟨?_, fun e he => ?_, (Session.elseBranch_eq hs hkind hin).1, ?_⟩
  · rw [compile_template, compile_template, mapError_bind,
      Session.emit_emptyElse hs hkind hin after]
    rfl
  · have hbelow := Session.Below.empty.run (before ++ .close :: after)
    obtain ⟨i, _, hat⟩ := (c.compile_meets name hbelow).of_error he
    refine ⟨i, hat.index, ?_⟩
    rw [CompileError.index?_renumber, hat.index]
    rfl
  · exact (Session.run_alongside hs hkind hin []).answers after

/-- The else branch of the scope around the loop is never entered. After it an unknown action
fails the compilation, and a call too many is refused. -/
theorem compile_emptyElse_loopInBranch :
    ((Session.empty.run (loopInBranch.take 6)).opened.map (·.head.header.kind) = [.ifElse]) ∧
    fewActions.compile "" (Session.empty.run (loopInBranch.take 6 ++
      [.close, .close, .add { category := .playerAction, action := "Fly" }])) =
        .error (.unknownAction 8 "player_action" "Fly") ∧
    (fewActions.compile "" (Session.empty.run (loopInBranch.take 6 ++
      [.elseBranch, .close, .close, .add { category := .playerAction, action := "Fly" }]))).map
        (·.template) = .error (.unknownAction 9 "player_action" "Fly") ∧
    (Session.empty.run (loopInBranch.take 6 ++ [.elseBranch, .close])).answers [.close] =
      [.error (.unbalancedScope 8 .closeOutside)] := by
  obtain ⟨htemplate, _, _, _⟩ := compile_emptyElse fewActions "" (loopInBranch.take 6)
    [.close, .add { category := .playerAction, action := "Fly" }] rfl rfl rfl
  obtain ⟨_, _, _, hanswers⟩ := compile_emptyElse fewActions "" (loopInBranch.take 6) [.close]
    rfl rfl rfl
  exact ⟨rfl, rfl, htemplate, hanswers⟩

end Compiler
end BlockTemplate
