import BlockTemplate.Proofs.Emission.Blame
import BlockTemplate.Proofs.Emission.Headers
import BlockTemplate.Proofs.Script.Failures
import BlockTemplate.Proofs.Session.Unclosed

/-! Which statement a failed script is blamed on: the one whose call caused the failure, whatever
stage found it. -/
namespace BlockTemplate
open Script

namespace Script

/-- A range inside another. -/
structure Span.Within (s outer : Span) : Prop where
  start : outer.start ≤ s.start
  ordered : s.start ≤ s.stop
  stop : s.stop ≤ outer.stop

theorem Span.Inside.within {cut : Nat → Prop} {outer s : Span}
    (h : s.Inside cut outer.start outer.stop) : s.Within outer :=
  ⟨h.low, h.sound.ordered, h.high⟩

/-- The place of a refused call: of the statement, or of the `var` call in it that names an unknown
variable. -/
def BlamedPlace (st : Located Statement) (span : Option Span) : CompileError → Prop
  | .unknownVariable _ _ => ∃ call ∈ varCallsOf st.item.args, call.Within st.span ∧ span = some call
  | _ => span = some st.span

theorem blamedPlace_of_at {i : Nat} {e : CompileError} (h : e.At i) (st : Located Statement) :
    BlamedPlace st (some st.span) e := by
  cases e with
  | unknownVariable j name => exact absurd rfl (h.known j name)
  | _ => rfl

theorem Blamed.compile_place {next : Nat} {st : Located Statement} {e : CompileError}
    {span : Option Span} {cut : Nat → Prop} (h : Blamed next st (.compile e span))
    (hst : Placed cut st) : e.index? = some next ∧ BlamedPlace st span e := by
  cases h with
  | unknown name h =>
    have hplace : _ ∈ st.item.places := List.mem_append_left _ (varCallsOf_subset _ h)
    exact ⟨rfl, _, h, (hst.inside _ hplace).within, rfl⟩
  | unbalanced fault => exact ⟨rfl, rfl⟩

theorem Blamed.script_place {next : Nat} {st : Located Statement} {errors : List ScriptError}
    {cut : Nat → Prop} (h : Blamed next st (.script errors)) (hst : Placed cut st) :
    ∃ fault span, errors = [.meaningless fault span] ∧ span.Within st.span := by
  cases h with
  | meaningless fault h => exact ⟨fault, _, rfl, (hst.inside _ h).within⟩

section Replay
variable {script : List (Located Statement)} {session : Session}

theorem replay_empty_next (h : replay .empty script = .ok session) :
    session.next = script.length := by
  obtain ⟨calls, hlength, rfl⟩ := (replay_meets .empty script).of_ok h
  rw [Session.run_next, hlength]
  exact Nat.zero_add _

/-- Indices of calls are places in the script, as replay starts at the first of both. -/
theorem replay_take_next {i : Nat} {st : Located Statement} (hget : script[i]? = some st)
    (h : replay .empty (script.take i) = .ok session) : session.next = i := by
  have hi : i < script.length := (List.getElem?_eq_some_iff.1 hget).1
  rw [replay_empty_next h, List.length_take_of_le (Nat.le_of_lt hi)]

/-- Statement number `i`, and the call that it makes once those before it are accepted. -/
def CallAt (script : List (Located Statement)) (i : Nat) (st : Located Statement)
    (call : SessionCall) : Prop :=
  script[i]? = some st ∧ ∃ s, replay .empty (script.take i) = .ok s ∧ st.item.toCall s = .ok call

end Replay

end Script

namespace Compiler
variable {source : String} {script : List (Located Statement)} {c : Compiler} {name : String}

/-- A script that parses can only be refused by replay or by compilation. -/
theorem compileScript_of_parse {f : Failure} (hparse : parse source = .ok script)
    (h : c.compileScript name source = .error f) : replay .empty script = .error f ∨
      ∃ session e, replay .empty script = .ok session ∧ c.compile name session = .error e ∧
        f = .compile e (blame script e) := by
  obtain ⟨errors, herrors, _⟩ | ⟨script', hscript, h⟩ := compileScript_cases h
  · rw [hparse] at herrors
    cases herrors
  · obtain rfl : script = script' := Except.ok.inj (hparse.symm.trans hscript)
    exact h

/-- Why a script fails at statement number `i`, by the stage that finds it. -/
inductive Cause (c : Compiler) (script : List (Located Statement)) (i : Nat)
    (st : Located Statement) : CompileError → Prop
  /-- The statement itself is refused, after all before it were accepted. -/
  | refused {s : Session} {e : CompileError} {span : Option Span}
      (hbefore : replay .empty (script.take i) = .ok s)
      (hrefused : st.item.apply s st.span = .error (.compile e span)) : Cause c script i st e
  /-- The scope that the statement opens is never closed, and no scope around it is left open. -/
  | unclosed {s : Session} {o : OpenScope} (hreplay : replay .empty script = .ok s)
      (hcall : CallAt script i st (.openScope o.header)) (hindex : o.openAt = i)
      (houtermost : s.opened.getLast? = some o) (hfirst : ∀ p ∈ s.opened, i ≤ p.openAt) :
      Cause c script i st (.unbalancedScope i (.unclosed o.header.kind i))
  /-- The step of the statement is the first that is out of place. -/
  | misplaced {s : Session} {before after : List Step} {step : Step} {call : SessionCall}
      (hreplay : replay .empty script = .ok s)
      (hflat : flatten s.finish.nodes = .ok (before ++ step :: after))
      (hcall : CallAt script i st call) (hmade : step.MadeBy call) (hindex : step.index = i)
      (hbad : Misplaced before step)
      (hfirst : ∀ earlier other later, before ++ step :: after = earlier ++ other :: later →
        earlier.length < before.length → ¬ Misplaced earlier other)
      (block : String) (fault : Misplacement) : Cause c script i st (.misplacedHeader i block fault)
  /-- The step of the statement is the first that has no records. -/
  | unemitted {s : Session} {before after : List Step} {step : Step} {call : SessionCall}
      {records : List Record} {e : CompileError} (hreplay : replay .empty script = .ok s)
      (hflat : flatten s.finish.nodes = .ok (before ++ step :: after))
      (hcall : CallAt script i st call) (hmade : step.MadeBy call) (hindex : step.index = i)
      (hheaders : checkHeaders {} (before ++ step :: after) = .ok ())
      (hbefore : recordsOf c.table c.settings.limits before = .ok records)
      (hrefused : step.records c.table c.settings.limits = .error e) : Cause c script i st e

/-- What a session that was replayed fails to compile for. -/
theorem compile_cause {session : Session} {e : CompileError}
    (hreplay : replay .empty script = .ok session) (h : c.compile name session = .error e) :
    ∃ i st, e.At i ∧ script[i]? = some st ∧ c.Cause script i st e := by
  obtain ⟨calls, rfl, hcalls⟩ := replay_calls hreplay
  obtain h | ⟨steps, hflat, h⟩ := bind_eq_error.1 h
  · have hsound := Session.Sound.empty.run calls
    cases hlast : (Session.empty.run calls).opened.getLast? with
    | none =>
      rw [hsound.flatten_finish (List.getLast?_eq_none_iff.1 hlast)] at h
      cases h
    | some o =>
      rw [hsound.flatten_finish_outermost hlast] at h
      cases h
      have hopened := Session.call_of_opened (List.mem_of_getLast? hlast)
      obtain ⟨st, s, hget, hbefore, hcall⟩ := hcalls _ _ hopened
      exact ⟨o.openAt, st, ⟨rfl, by simp [OpenScope.unclosed]⟩, hget,
        .unclosed hreplay ⟨hget, s, hbefore, hcall⟩ rfl hlast
          fun p => Session.outermost_le_of_run hlast⟩
  · have hstatement : ∀ step ∈ steps, ∃ st call, script[step.index]? = some st ∧
        CallAt script step.index st call ∧ step.MadeBy call := by
      intro step hstep
      obtain ⟨call, hmade, hget⟩ := Session.call_of_step hflat hstep
      obtain ⟨st, s, hst, hbefore, hcall⟩ := hcalls _ _ hget
      exact ⟨st, call, hst, ⟨hst, s, hbefore, hcall⟩, hmade⟩
    obtain h | ⟨_, _, h⟩ := bind_eq_error.1 h
    · obtain h | ⟨_, hheaders, h⟩ := bind_eq_error.1 h
      · obtain ⟨nodes, hwhole, rfl, _⟩ := Session.run_flatten hflat
        obtain ⟨before, step, after, block, fault, hsteps, hbad, hfirst, rfl⟩ :=
          misplaced_of_refused hwhole.closed h
        rw [hsteps] at hflat hstatement hfirst
        obtain ⟨st, call, hst, hcall, hmade⟩ := hstatement step (by simp)
        exact ⟨step.index, st, ⟨rfl, by simp⟩, hst,
          .misplaced hreplay hflat hcall hmade rfl hbad hfirst block fault⟩
      · obtain ⟨before, step, after, first, rfl, hbefore, hrefused⟩ := recordsOf_refused h
        obtain ⟨st, call, hst, hcall, hmade⟩ := hstatement step (by simp)
        have hat := (step.records_meets c.table c.settings.limits).of_error hrefused
        exact ⟨step.index, st, hat, hst,
          .unemitted hreplay hflat hcall hmade rfl hheaders hbefore hrefused⟩
    · cases h

/-- A failed compilation is blamed on the statement that caused it, with the index of its call and
its place: the statement that is refused, the one that opened the outermost scope left open, or the
one whose step is misplaced or cannot be emitted. Only for an unknown variable the place is that of
the expression in it. A statement without meaning is blamed on a place inside it, and replay makes
one call per statement. -/
theorem compileScript_blames (hparse : parse source = .ok script) (c : Compiler) (name : String) :
    (∀ e span, c.compileScript name source = .error (.compile e span) →
      ∃ i st, e.index? = some i ∧ script[i]? = some st ∧ BlamedPlace st span e ∧
        c.Cause script i st e) ∧
    (∀ errors, c.compileScript name source = .error (.script errors) →
      ∃ i st session fault span, script[i]? = some st ∧
        replay .empty (script.take i) = .ok session ∧
        errors = [.meaningless fault span] ∧ span.Within st.span) ∧
    ∀ session, replay .empty script = .ok session → session.next = script.length := by
  have hplaced := (parse_meets source).of_ok hparse
  refine ⟨?_, ?_, fun session h => replay_empty_next h⟩
  · intro e span h
    obtain h | ⟨session, e', hreplay, hcompile, hf⟩ := compileScript_of_parse hparse h
    · obtain ⟨i, st, s, hget, hbefore, hrefused⟩ := replay_error h
      have hblamed := (apply_meets s st).of_error hrefused
      obtain ⟨hindex, hplace⟩ := hblamed.compile_place (hplaced st (List.mem_of_getElem? hget))
      rw [replay_take_next hget hbefore] at hindex
      exact ⟨i, st, hindex, hget, hplace, .refused hbefore hrefused⟩
    · cases hf
      obtain ⟨i, st, hat, hget, hcause⟩ := compile_cause hreplay hcompile
      have hblame : blame script e = some st.span := by simp [blame, hat.index, hget]
      rw [hblame]
      exact ⟨i, st, hat.index, hget, blamedPlace_of_at hat st, hcause⟩
  · intro errors h
    obtain h | ⟨_, _, _, _, hf⟩ := compileScript_of_parse hparse h
    · obtain ⟨i, st, s', hget, hbefore, hrefused⟩ := replay_error h
      have hblamed := (apply_meets s' st).of_error hrefused
      obtain ⟨fault, span, herrors, hwithin⟩ :=
        hblamed.script_place (hplaced st (List.mem_of_getElem? hget))
      exact ⟨i, st, s', fault, span, hget, hbefore, herrors, hwithin⟩
    · cases hf

/-- A name that nothing declares, in a list in the second statement. -/
def undeclared : String := "event Join\naction player SendMessage ([var(x)])"

/-- Two scopes that are never closed. -/
def neverClosed : String := "event Join\nifelse player IsSneaking\nrepeat Forever"

/-- An action that a compiler without schemas does not know. -/
def unknownEvent : String := "event Join"

theorem compileScript_blames_undeclared :
    (∃ script st, parse undeclared = .ok script ∧
      compileScript {} "" undeclared =
        .error (.compile (.unknownVariable 1 "x") (some ⟨39, 45⟩)) ∧
      script[1]? = some st ∧ BlamedPlace st (some ⟨39, 45⟩) (.unknownVariable 1 "x") ∧
      Cause {} script 1 st (.unknownVariable 1 "x")) ∧
    (∃ script st, parse neverClosed = .ok script ∧
      compileScript {} "" neverClosed =
        .error (.compile (.unbalancedScope 1 (.unclosed .ifElse 1)) (some ⟨11, 35⟩)) ∧
      script[1]? = some st ∧ st.span = ⟨11, 35⟩ ∧
      Cause {} script 1 st (.unbalancedScope 1 (.unclosed .ifElse 1))) ∧
    ∃ script st, parse unknownEvent = .ok script ∧
      compileScript { table := .empty } "" unknownEvent =
        .error (.compile (.unknownAction 0 "event" "Join") (some ⟨0, 10⟩)) ∧
      script[0]? = some st ∧ st.span = ⟨0, 10⟩ ∧
      Cause { table := .empty } script 0 st (.unknownAction 0 "event" "Join") := by
  refine ⟨?_, ?_, ?_⟩
  · obtain ⟨script, hparse, -⟩ : ∃ script, parse undeclared = .ok script ∧ script.length = 2 :=
      exists_ok_of_map (by decide +kernel)
    have herror : compileScript {} "" undeclared =
        .error (.compile (.unknownVariable 1 "x") (some ⟨39, 45⟩)) := by decide +kernel
    obtain ⟨i, st, hindex, hget, hplace, hcause⟩ :=
      (compileScript_blames hparse {} "").1 _ _ herror
    cases hindex
    exact ⟨script, st, hparse, herror, hget, hplace, hcause⟩
  · obtain ⟨script, hparse, -⟩ : ∃ script, parse neverClosed = .ok script ∧ script.length = 3 :=
      exists_ok_of_map (by decide +kernel)
    have herror : compileScript {} "" neverClosed =
        .error (.compile (.unbalancedScope 1 (.unclosed .ifElse 1)) (some ⟨11, 35⟩)) := by
      decide +kernel
    obtain ⟨i, st, hindex, hget, hplace, hcause⟩ :=
      (compileScript_blames hparse {} "").1 _ _ herror
    cases hindex
    exact ⟨script, st, hparse, herror, hget, (Option.some.inj hplace).symm, hcause⟩
  · obtain ⟨script, hparse, -⟩ : ∃ script, parse unknownEvent = .ok script ∧ script.length = 1 :=
      exists_ok_of_map (by decide +kernel)
    have herror : compileScript { table := .empty } "" unknownEvent =
        .error (.compile (.unknownAction 0 "event" "Join") (some ⟨0, 10⟩)) := by decide +kernel
    obtain ⟨i, st, hindex, hget, hplace, hcause⟩ :=
      (compileScript_blames hparse { table := .empty } "").1 _ _ herror
    cases hindex
    exact ⟨script, st, hparse, herror, hget, (Option.some.inj hplace).symm, hcause⟩

end Compiler

end BlockTemplate
