import BlockTemplate.Proofs.Session.Closed
import BlockTemplate.Proofs.Session.Run

/-! The flat form of a session's tree, read off its calls in one pass without a tree. -/
namespace BlockTemplate

/-- What the pass keeps of an open scope. -/
structure ScopeMark where
  kind : ScopeKind
  /-- Whether its else branch was entered. -/
  switched : Bool

namespace LinearPass

/-- The steps that an accepted call with an index adds, under the scopes that are open. -/
def emitted (marks : List ScopeMark) (index : Nat) : SessionCall → List Step
  | .declare _ _ _ => []
  | .add a => [.action index a]
  | .openScope h => [.opened index h]
  | .elseBranch => [.switched index .ifElse]
  | .close =>
    match marks with
    | [] => []
    | m :: _ =>
      (if m.kind = .ifElse ∧ m.switched = false then [.switched index .ifElse] else []) ++
        [.closed index m.kind]

/-- The open scopes after an accepted call, innermost first. -/
def marksAfter (marks : List ScopeMark) : SessionCall → List ScopeMark
  | .declare _ _ _ | .add _ => marks
  | .openScope h => ⟨h.kind, false⟩ :: marks
  | .elseBranch =>
    match marks with
    | [] => []
    | m :: rest => { m with switched := true } :: rest
  | .close => marks.tail

/-- The steps of the calls from an index on. A refused call takes its index and adds nothing. -/
def steps (marks : List ScopeMark) (index : Nat) : List (SessionCall × Bool) → List Step
  | [] => []
  | (_, false) :: rest => steps marks (index + 1) rest
  | (c, true) :: rest =>
    emitted marks index c ++ steps (marksAfter marks c) (index + 1) rest

end LinearPass

namespace OpenScope

def mark (o : OpenScope) : ScopeMark := ⟨o.header.kind, o.inElse⟩

/-- The steps of a scope so far. -/
def shown (o : OpenScope) : List Step :=
  .opened o.openAt o.header :: stepsOf o.body ++
    o.elseAt.toList.map (.switched · o.header.kind) ++ stepsOf o.others

/-- What a scope holds is closed, in branches that are as they should be. -/
structure Sound (o : OpenScope) : Prop extends o.Branched where
  body : ClosedNodes o.body
  others : ClosedNodes o.others

theorem Sound.push {o : OpenScope} (h : o.Sound) {n : Node} (hn : n.Closed) : (o.push n).Sound := by
  have hone : ClosedNodes [n] := ⟨hn, trivial⟩
  refine ⟨h.toBranched.push n, ?_, ?_⟩ <;>
    obtain ⟨_, hs⟩ | ⟨_, hs⟩ := o.push_cases n <;> rw [hs]
  · exact (closedNodes_append _ _).mpr ⟨h.body, hone⟩
  · exact h.body
  · exact h.others
  · exact (closedNodes_append _ _).mpr ⟨h.others, hone⟩

@[simp] theorem push_mark (o : OpenScope) (n : Node) : (o.push n).mark = o.mark := by
  unfold OpenScope.push
  split <;> rfl

/-- A node lands at the end of what is shown, whichever branch it goes to. -/
theorem Sound.push_shown {o : OpenScope} (h : o.Sound) (n : Node) :
    (o.push n).shown = o.shown ++ n.steps := by
  obtain ⟨hin, hs⟩ | ⟨_, hs⟩ := o.push_cases n <;> rw [hs]
  · have hnone : o.elseAt = none := h.elseAt_eq_none.2 hin
    have hothers : o.elseBody.getD [] = [] := h.untouched hin
    simp [shown, OpenScope.others, hnone, hothers, stepsOf_append, stepsOf]
  · simp [shown, OpenScope.others, stepsOf_append, stepsOf_singleton]

theorem Sound.closed_toNode {o : OpenScope} (h : o.Sound) (i : Nat) :
    (o.toNode (some i)).Closed := by
  rw [toNode, h.elseBody_eq]
  split
  · exact ⟨rfl, h.body, h.others⟩
  · exact ⟨rfl, h.body⟩

/-- Closing adds the close, and the else mark that an if-else scope still lacks. -/
theorem Sound.toNode_steps {o : OpenScope} (h : o.Sound) (i : Nat) (marks : List ScopeMark) :
    (o.toNode (some i)).steps = o.shown ++ LinearPass.emitted (o.mark :: marks) i .close := by
  rw [toNode, h.elseBody_eq]
  by_cases hkind : o.header.kind = .ifElse
  · rw [if_pos hkind]
    cases hin : o.inElse with
    | false =>
      simp [shown, mark, LinearPass.emitted, Node.steps, hkind, hin, h.elseAt_eq_none.2 hin,
        h.untouched hin, stepsOf]
    | true =>
      obtain ⟨j, hj⟩ := Option.isSome_iff_exists.1 (h.entered.symm.trans hin)
      simp [shown, mark, LinearPass.emitted, Node.steps, hkind, hin, hj]
  · have hin : o.inElse = false := Bool.not_eq_true _ ▸ mt h.ifElse hkind
    rw [if_neg hkind]
    simp [shown, mark, LinearPass.emitted, Node.steps, hkind, h.elseAt_eq_none.2 hin,
      h.untouched hin, stepsOf]

end OpenScope

/-- The steps of open scopes, innermost first. -/
def shownScopes : List OpenScope → List Step
  | [] => []
  | o :: rest => shownScopes rest ++ o.shown

namespace Session

/-- The steps of a session so far: what a linear pass has emitted. -/
def shown (s : Session) : List Step := stepsOf s.root ++ shownScopes s.opened

def marks (s : Session) : List ScopeMark := s.opened.map (·.mark)

structure Sound (s : Session) : Prop where
  root : ClosedNodes s.root
  opened : ∀ o ∈ s.opened, o.Sound

theorem Sound.empty : Session.empty.Sound := ⟨trivial, by simp [Session.empty]⟩

theorem Sound.push {s : Session} (h : s.Sound) {n : Node} (hn : n.Closed) : (s.push n).Sound := by
  cases hs : s.opened with
  | nil =>
    refine ⟨?_, ?_⟩ <;> simp only [Session.push, hs]
    · exact (closedNodes_append _ _).mpr ⟨h.root, hn, trivial⟩
    · simp
  | cons top rest =>
    have hall := h.opened
    rw [hs, List.forall_mem_cons] at hall
    refine ⟨?_, ?_⟩ <;> simp only [Session.push, hs]
    · exact h.root
    · exact List.forall_mem_cons.mpr ⟨hall.1.push hn, hall.2⟩

theorem Sound.push_shown {s : Session} (h : s.Sound) (n : Node) :
    (s.push n).shown = s.shown ++ n.steps := by
  cases hs : s.opened with
  | nil => simp [Session.push, Session.shown, hs, shownScopes, stepsOf_append, stepsOf_singleton]
  | cons top rest =>
    have htop : top.Sound := h.opened top (by simp [hs])
    simp [Session.push, Session.shown, hs, shownScopes, htop.push_shown]

@[simp] theorem push_marks (s : Session) (n : Node) : (s.push n).marks = s.marks := by
  cases hs : s.opened <;> simp [Session.push, marks, hs]

/-- What a call does to the pass: an accepted one adds the steps of the pass, a refused one adds
nothing. -/
structure Follows (s t : Session) (c : SessionCall) (accepted : Bool) : Prop where
  sound : t.Sound
  shown : t.shown = s.shown ++ if accepted then LinearPass.emitted s.marks s.next c else []
  marks : t.marks = if accepted then LinearPass.marksAfter s.marks c else s.marks

theorem Sound.follows_skip {s : Session} (h : s.Sound) (c : SessionCall) :
    s.Follows s.skip c false :=
  ⟨⟨h.root, h.opened⟩, by simp [Session.shown, Session.skip], rfl⟩

theorem Sound.follows_declare {s : Session} (h : s.Sound) (name : String)
    (scope : VariableClass) (kind : Option Kind) :
    s.Follows (s.declare name scope kind) (.declare name scope kind) true :=
  ⟨⟨h.root, h.opened⟩, by simp [Session.shown, Session.declare, Session.skip, LinearPass.emitted],
    rfl⟩

theorem Sound.follows_add {s : Session} (h : s.Sound) (a : Action) :
    s.Follows (s.skip.push (.action s.next a)) (.add a) true := by
  have hskip : s.skip.Sound := (h.follows_skip (.add a)).sound
  refine ⟨hskip.push trivial, ?_, ?_⟩
  · rw [hskip.push_shown]
    rfl
  · rw [push_marks]
    rfl

theorem Sound.follows_open {s : Session} (h : s.Sound) (header : Header) :
    s.Follows { s.skip with
      opened := .start header s.next :: s.opened
      declarations := s.declarations.enter } (.openScope header) true := by
  have hnew : (OpenScope.start header s.next).Sound :=
    ⟨.start header s.next, trivial, by simp [ClosedNodes]⟩
  refine ⟨⟨h.root, List.forall_mem_cons.mpr ⟨hnew, h.opened⟩⟩, ?_, rfl⟩
  simp [Session.shown, Session.skip, shownScopes, OpenScope.shown, stepsOf, LinearPass.emitted]

/-- Entering the else branch shows its mark where the next node will land. -/
theorem Sound.follows_else {s : Session} (h : s.Sound) {top : OpenScope} {rest : List OpenScope}
    (hs : s.opened = top :: rest) (hkind : top.header.kind = .ifElse) (hin : top.inElse = false) :
    s.Follows { s.skip with
      opened := top.switch s.next :: rest
      declarations := s.declarations.exit.enter } .elseBranch true := by
  have hall := h.opened
  rw [hs, List.forall_mem_cons] at hall
  have htop := hall.1
  have hnew : (top.switch s.next).Sound := ⟨htop.switch hkind s.next, htop.body, htop.others⟩
  refine ⟨⟨h.root, List.forall_mem_cons.mpr ⟨hnew, hall.2⟩⟩, ?_, ?_⟩
  · simp [Session.shown, Session.skip, hs, shownScopes, OpenScope.shown, htop.untouched hin,
      htop.elseAt_eq_none.2 hin, hkind, stepsOf, LinearPass.emitted]
  · simp [Session.marks, hs, OpenScope.mark, OpenScope.switch, LinearPass.marksAfter]

/-- The closed scope moves into the branch around it; what is shown only grows at the end. -/
theorem Sound.follows_close {s : Session} (h : s.Sound) {top : OpenScope} {rest : List OpenScope}
    (hs : s.opened = top :: rest) :
    s.Follows ({ s.skip with
      opened := rest
      declarations := s.declarations.exit }.push (top.toNode (some s.next))) .close true := by
  have hall := h.opened
  rw [hs, List.forall_mem_cons] at hall
  have htop := hall.1
  have hrest : Session.Sound { s.skip with
      opened := rest
      declarations := s.declarations.exit } := ⟨h.root, hall.2⟩
  refine ⟨hrest.push (htop.closed_toNode s.next), ?_, ?_⟩
  · rw [hrest.push_shown, htop.toNode_steps s.next (rest.map (·.mark))]
    simp [Session.shown, Session.skip, hs, shownScopes, Session.marks]
  · rw [push_marks]
    simp [Session.marks, hs, LinearPass.marksAfter]

/-- The step of the simulation, one case for each kind of call. -/
theorem Sound.follows {s : Session} (h : s.Sound) (c : SessionCall) :
    s.Follows (s.after c) c (s.accepts c) := by
  cases c with
  | declare name scope kind => exact h.follows_declare name scope kind
  | add a =>
    obtain ⟨hok, heq⟩ | ⟨hok, heq⟩ := s.add_cases a
    · rw [hok, heq]
      exact h.follows_add a
    · rw [hok, heq]
      exact h.follows_skip _
  | openScope header =>
    obtain ⟨hok, heq⟩ | ⟨hok, heq⟩ := s.openScope_cases header
    · rw [hok, heq]
      exact h.follows_open header
    · rw [hok, heq]
      exact h.follows_skip _
  | elseBranch =>
    obtain ⟨top, rest, hs, hkind, hin, hok, heq⟩ | ⟨hok, heq⟩ := s.elseBranch_cases
    · rw [hok, heq]
      exact h.follows_else hs hkind hin
    · rw [hok, heq]
      exact h.follows_skip _
  | close =>
    obtain ⟨top, rest, hs, hok, heq⟩ | ⟨_, hok, heq⟩ := s.close_cases
    · rw [hok, heq]
      exact h.follows_close hs
    · rw [hok, heq]
      exact h.follows_skip _

theorem Sound.run {s : Session} (h : s.Sound) (calls : List SessionCall) : (s.run calls).Sound := by
  induction calls generalizing s with
  | nil => exact h
  | cons c rest ih => exact ih (h.follows c).sound

/-- Whatever a session shows and the pass over the calls to come is what it shows at the end. -/
theorem Sound.run_shown {s : Session} (h : s.Sound) (calls : List SessionCall) :
    (s.run calls).shown = s.shown ++ LinearPass.steps s.marks s.next (s.trace calls) := by
  induction calls generalizing s with
  | nil => simp [Session.run, Session.trace, LinearPass.steps]
  | cons c rest ih =>
    have hc := h.follows c
    rw [Session.run, ih hc.sound, hc.shown, hc.marks, after_next, Session.trace]
    cases s.accepts c <;> simp [LinearPass.steps]

/-- Building the tree of a session and flattening it is a single pass over its calls, in order and
with their indices. Calls may be refused on the way; only all scopes must be closed at the end. -/
theorem flatten_finish_run (calls : List SessionCall)
    (hclosed : (Session.empty.run calls).depth = 0) :
    flatten (Session.empty.run calls).finish.nodes =
      .ok (LinearPass.steps [] 0 (Session.empty.trace calls)) := by
  have hsound : (Session.empty.run calls).Sound := Sound.empty.run calls
  have hnone : (Session.empty.run calls).opened = [] := List.length_eq_zero_iff.mp hclosed
  have hnodes : (Session.empty.run calls).finish.nodes = (Session.empty.run calls).root := by
    simp only [finish, hnone]
  have hshown := Sound.empty.run_shown calls
  rw [Session.shown, hnone] at hshown
  rw [hnodes, flatten_of_closed _ hsound.root]
  simpa [shownScopes, Session.shown, Session.marks, Session.empty, stepsOf] using hshown

/-- Nested if-else scopes, the outer one without an else branch, among calls that are refused. -/
def nestedCalls : List SessionCall :=
  [.close,
    .openScope (.ifElse { category := .player, action := "IsSneaking" }),
    .add { category := .setVariable, action := "=", params := [.variable ⟨"x", .localVar⟩] },
    .openScope (.ifElse { category := .game, action := "HasPlayer" }),
    .add { category := .playerAction, action := "Jump" },
    .elseBranch,
    .elseBranch,
    .declare "x" .localVar none,
    .add { category := .setVariable, action := "=", params := [.variable ⟨"x", .localVar⟩] },
    .close,
    .close]

theorem flatten_finish_run_nestedCalls :
    (Session.empty.run nestedCalls).depth = 0 ∧
    flatten (Session.empty.run nestedCalls).finish.nodes = .ok
      [.opened 1 (.ifElse { category := .player, action := "IsSneaking" }),
        .opened 3 (.ifElse { category := .game, action := "HasPlayer" }),
        .action 4 { category := .playerAction, action := "Jump" },
        .switched 5 .ifElse,
        .action 8
          { category := .setVariable, action := "=", params := [.variable ⟨"x", .localVar⟩] },
        .closed 9 .ifElse,
        .switched 10 .ifElse,
        .closed 10 .ifElse] :=
  ⟨rfl, flatten_finish_run nestedCalls rfl⟩

end Session
end BlockTemplate
