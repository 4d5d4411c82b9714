import BlockTemplate.Proofs.Outcome
import BlockTemplate.Proofs.Session.LinearPass
import BlockTemplate.Proofs.Session.Visibility

/-! Two runs side by side, where one has made a call more than the other before: from there on the
same calls get the same answers, about calls whose indices are one higher. -/
namespace BlockTemplate

/-- Indices from `p` on become one higher. -/
def shiftFrom (p i : Nat) : Nat := if p ≤ i then i + 1 else i

theorem shiftFrom_of_le {p i : Nat} (h : p ≤ i) : shiftFrom p i = i + 1 := if_pos h

theorem shiftFrom_of_lt {p i : Nat} (h : i < p) : shiftFrom p i = i :=
  if_neg (Nat.not_le_of_lt h)

def ScopeFault.renumber (f : Nat → Nat) : ScopeFault → ScopeFault
  | .elseInside kind openAt => .elseInside kind (f openAt)
  | .elseTwice openAt => .elseTwice (f openAt)
  | .unclosed kind openAt => .unclosed kind (f openAt)
  | .openUnmatched openAt => .openUnmatched (f openAt)
  | .elseOutside => .elseOutside
  | .closeOutside => .closeOutside
  | .closeUnmatched => .closeUnmatched

/-- The same error about calls with other indices. -/
def CompileError.renumber (f : Nat → Nat) : CompileError → CompileError
  | .invalidValue i cause => .invalidValue (f i) cause
  | .unknownVariable i name => .unknownVariable (f i) name
  | .unbalancedScope i fault => .unbalancedScope (f i) (fault.renumber f)
  | .parameterMismatch i block action expected fault =>
    .parameterMismatch (f i) block action expected fault
  | .unknownAction i block action => .unknownAction (f i) block action
  | .invalidTarget i block target => .invalidTarget (f i) block target
  | .misplacedHeader i block fault => .misplacedHeader (f i) block fault
  | .codeTooLong length max => .codeTooLong length max
  | .undecodable layer => .undecodable layer

theorem CompileError.index?_renumber (f : Nat → Nat) (e : CompileError) :
    (e.renumber f).index? = e.index?.map f := by
  cases e <;> rfl

def Step.renumber (f : Nat → Nat) : Step → Step
  | .action i a => .action (f i) a
  | .opened i h => .opened (f i) h
  | .switched i kind => .switched (f i) kind
  | .closed i kind => .closed (f i) kind

theorem Step.renumber_of_eq {f : Nat → Nat} {step : Step} (h : f step.index = step.index) :
    step.renumber f = step := by
  cases step <;> simp_all [renumber, index]

/-- An open scope without its branches. -/
structure ScopeHead where
  header : Header
  openAt : Nat
  elseAt : Option Nat
  inElse : Bool

def ScopeHead.renumber (f : Nat → Nat) (h : ScopeHead) : ScopeHead :=
  ⟨h.header, f h.openAt, h.elseAt.map f, h.inElse⟩

def OpenScope.head (o : OpenScope) : ScopeHead := ⟨o.header, o.openAt, o.elseAt, o.inElse⟩

@[simp] theorem OpenScope.push_head (o : OpenScope) (n : Node) : (o.push n).head = o.head := by
  unfold OpenScope.push
  split <;> rfl

namespace Declarations
variable {d e : Declarations}

theorem live_injection (h : e.live = d.live) : e.current = d.current ∧ e.outer = d.outer :=
  List.cons.inj h

theorem declare_live (h : e.live = d.live) (name : String) (scope : VariableClass)
    (kind : Option Kind) : (e.declare name scope kind).live = (d.declare name scope kind).live := by
  obtain ⟨hcurrent, houter⟩ := live_injection h
  simp only [live, declare, depth, hcurrent, houter]

theorem enter_live (h : e.live = d.live) : e.enter.live = d.enter.live := by
  obtain ⟨hcurrent, houter⟩ := live_injection h
  simp only [live, enter, hcurrent, houter]

theorem exit_live (h : e.live = d.live) : e.exit.live = d.exit.live := by
  obtain ⟨hcurrent, houter⟩ := live_injection h
  unfold exit
  rw [houter]
  cases d.outer with
  | nil => exact h
  | cons frame outer => rfl

/-- A frame that is entered and left again leaves no trace in those in force. -/
theorem enter_exit_live (d : Declarations) : d.enter.exit.live = d.live := rfl

end Declarations

namespace Session

def heads (s : Session) : List ScopeHead := s.opened.map (·.head)

@[simp] theorem push_heads (s : Session) (n : Node) : (s.push n).heads = s.heads := by
  cases hs : s.opened <;> simp [Session.push, heads, hs]

/-- The second session has made a call more, before index `p` of the first. -/
structure Alongside (p : Nat) (s t : Session) : Prop where
  started : p ≤ s.next
  next : t.next = s.next + 1
  heads : t.heads = s.heads.map (·.renumber (shiftFrom p))
  live : t.declarations.live = s.declarations.live

namespace Alongside
variable {p : Nat} {s t : Session} (h : s.Alongside p t)
include h

theorem next_eq : t.next = shiftFrom p s.next := by
  rw [h.next, shiftFrom_of_le h.started]

theorem unknown?_eq (values : List Value) : t.unknown? values = s.unknown? values := by
  simp only [unknown?, Declarations.isVisible, h.live]

theorem skip : s.skip.Alongside p t.skip :=
  ⟨Nat.le_succ_of_le h.started, congrArg (· + 1) h.next, h.heads, h.live⟩

theorem push (n m : Node) : (s.push n).Alongside p (t.push m) := by
  refine ⟨?_, ?_, ?_, ?_⟩
  · rw [push_next]
    exact h.started
  · rw [push_next, push_next, h.next]
  · rw [push_heads, push_heads, h.heads]
  · rw [push_declarations, push_declarations, h.live]

theorem opened_nil (hs : s.opened = []) : t.opened = [] := by
  have hheads := h.heads
  rw [Session.heads, Session.heads, hs] at hheads
  exact List.map_eq_nil_iff.1 hheads

theorem opened_cons {top : OpenScope} {rest : List OpenScope} (hs : s.opened = top :: rest) :
    ∃ other others, t.opened = other :: others ∧
      other.head = top.head.renumber (shiftFrom p) ∧
      others.map (·.head) = (rest.map (·.head)).map (·.renumber (shiftFrom p)) := by
  have hheads := h.heads
  rw [Session.heads, Session.heads, hs, List.map_cons, List.map_cons,
    List.map_eq_cons_iff] at hheads
  obtain ⟨other, others, hopened, hhead, hrest⟩ := hheads
  exact ⟨other, others, hopened, hhead, hrest⟩

theorem perform_add (a : Action) :
    (t.add a).1 = (s.add a).1.mapError (·.renumber (shiftFrom p)) ∧
      (s.add a).2.Alongside p (t.add a).2 := by
  unfold add
  rw [h.unknown?_eq]
  cases s.unknown? a.params with
  | none => exact ⟨rfl, h.skip.push _ _⟩
  | some v =>
    rw [h.next_eq]
    exact ⟨rfl, h.skip⟩

theorem perform_open (header : Header) :
    (t.openScope header).1 = (s.openScope header).1.mapError (·.renumber (shiftFrom p)) ∧
      (s.openScope header).2.Alongside p (t.openScope header).2 := by
  unfold openScope
  rw [h.unknown?_eq]
  cases s.unknown? header.values with
  | none =>
    refine ⟨rfl, h.skip.started, h.skip.next, ?_, Declarations.enter_live h.live⟩
    have hheads : t.opened.map (·.head) = (s.opened.map (·.head)).map _ := h.heads
    simp only [Session.heads, List.map_cons, hheads]
    rw [h.next_eq]
    rfl
  | some v =>
    rw [h.next_eq]
    exact ⟨rfl, h.skip⟩

/-- The innermost scopes are of one kind and in the same branch, so that both switch or neither. -/
theorem perform_else :
    t.elseBranch.1 = s.elseBranch.1.mapError (·.renumber (shiftFrom p)) ∧
      s.elseBranch.2.Alongside p t.elseBranch.2 := by
  unfold elseBranch
  cases hs : s.opened with
  | nil =>
    rw [h.opened_nil hs, h.next_eq]
    exact ⟨rfl, h.skip⟩
  | cons top rest =>
    obtain ⟨other, others, ht, hhead, hrest⟩ := h.opened_cons hs
    obtain ⟨hheader, hopen, _, hin⟩ : other.header = top.header ∧
        other.openAt = shiftFrom p top.openAt ∧
        other.elseAt = top.elseAt.map (shiftFrom p) ∧ other.inElse = top.inElse := by
      simpa [OpenScope.head, ScopeHead.renumber] using hhead
    simp only [ht, hheader, hin, hopen]
    by_cases hkind : top.header.kind ≠ .ifElse
    · rw [if_pos hkind, if_pos hkind, h.next_eq]
      exact ⟨rfl, h.skip⟩
    · rw [if_neg hkind, if_neg hkind]
      by_cases hsome : top.inElse = true
      · rw [if_pos hsome, if_pos hsome, h.next_eq]
        exact ⟨rfl, h.skip⟩
      · rw [if_neg hsome, if_neg hsome]
        refine ⟨rfl, h.skip.started, h.skip.next, ?_,
          Declarations.enter_live (Declarations.exit_live h.live)⟩
        simp only [Session.heads, List.map_cons, hrest]
        simp only [OpenScope.head, OpenScope.switch, ScopeHead.renumber, hheader, hopen, h.next_eq,
          Option.map_some]

theorem perform_close :
    t.close.1 = s.close.1.mapError (·.renumber (shiftFrom p)) ∧
      s.close.2.Alongside p t.close.2 := by
  unfold close
  cases hs : s.opened with
  | nil =>
    rw [h.opened_nil hs, h.next_eq]
    exact ⟨rfl, h.skip⟩
  | cons top rest =>
    obtain ⟨other, others, ht, _, hrest⟩ := h.opened_cons hs
    rw [ht]
    have hpopped : Alongside p { s.skip with opened := rest, declarations := s.declarations.exit }
        { t.skip with opened := others, declarations := t.declarations.exit } :=
      ⟨h.skip.started, h.skip.next, hrest, Declarations.exit_live h.live⟩
    exact ⟨rfl, hpopped.push _ _⟩

/-- One call: the same answer up to the indices in it, and the sessions stay side by side. -/
theorem perform (c : SessionCall) :
    (t.perform c).1 = (s.perform c).1.mapError (·.renumber (shiftFrom p)) ∧
      (s.after c).Alongside p (t.after c) := by
  cases c with
  | declare name scope kind =>
    exact ⟨rfl, h.skip.started, h.skip.next, h.heads,
      Declarations.declare_live h.live name scope kind⟩
  | add a => exact h.perform_add a
  | openScope header => exact h.perform_open header
  | elseBranch => exact h.perform_else
  | close => exact h.perform_close

end Alongside

/-- What the calls of a run are told. -/
def answers (s : Session) : List SessionCall → List (Except CompileError Unit)
  | [] => []
  | c :: rest => (s.perform c).1 :: (s.after c).answers rest

theorem Alongside.accepts {p : Nat} {s t : Session} (h : s.Alongside p t) (c : SessionCall) :
    t.accepts c = s.accepts c := by
  rw [Session.accepts, Session.accepts, (h.perform c).1]
  cases (s.perform c).1 <;> rfl

theorem Alongside.run {p : Nat} {s t : Session} (h : s.Alongside p t) (calls : List SessionCall) :
    (s.run calls).Alongside p (t.run calls) := by
  induction calls generalizing s t with
  | nil => exact h
  | cons c rest ih => exact ih (h.perform c).2

theorem Alongside.answers {p : Nat} {s t : Session} (h : s.Alongside p t)
    (calls : List SessionCall) :
    t.answers calls = (s.answers calls).map (·.mapError (·.renumber (shiftFrom p))) := by
  induction calls generalizing s t with
  | nil => rfl
  | cons c rest ih =>
    rw [Session.answers, Session.answers, List.map_cons, (h.perform c).1, ih (h.perform c).2]

theorem Alongside.trace {p : Nat} {s t : Session} (h : s.Alongside p t)
    (calls : List SessionCall) : t.trace calls = s.trace calls := by
  induction calls generalizing s t with
  | nil => rfl
  | cons c rest ih => rw [Session.trace, Session.trace, h.accepts, ih (h.perform c).2]

end Session

namespace LinearPass

theorem emitted_renumber (f : Nat → Nat) (marks : List ScopeMark) (index : Nat)
    (c : SessionCall) :
    emitted marks (f index) c = (emitted marks index c).map (·.renumber f) := by
  cases c with
  | declare _ _ _ | add _ | openScope _ | elseBranch => rfl
  | close =>
    cases marks with
    | nil => rfl
    | cons m marks =>
      rw [emitted, emitted, List.map_append]
      congr 1
      split <;> rfl

theorem steps_shift {p : Nat} (marks : List ScopeMark) {index : Nat} (h : p ≤ index)
    (past : List (SessionCall × Bool)) :
    steps marks (index + 1) past = (steps marks index past).map (·.renumber (shiftFrom p)) := by
  induction past generalizing marks index with
  | nil => rfl
  | cons x rest ih =>
    obtain ⟨c, ok⟩ := x
    cases ok with
    | false => exact ih marks (Nat.le_succ_of_le h)
    | true =>
      rw [steps, steps, List.map_append, ← emitted_renumber, shiftFrom_of_le h,
        ih _ (Nat.le_succ_of_le h)]

theorem index_of_emitted {marks : List ScopeMark} {index : Nat} {c : SessionCall} {step : Step}
    (h : step ∈ emitted marks index c) : step.index = index := by
  cases c with
  | declare _ _ _ => cases h
  | add _ | openScope _ | elseBranch =>
    obtain rfl := List.mem_singleton.1 h
    rfl
  | close =>
    cases marks with
    | nil => cases h
    | cons m marks =>
      rw [emitted, List.mem_append, List.mem_singleton] at h
      obtain h | rfl := h
      · split at h
        · obtain rfl := List.mem_singleton.1 h
          rfl
        · cases h
      · rfl

theorem index_lt {marks : List ScopeMark} {index : Nat} {past : List (SessionCall × Bool)}
    {step : Step} (h : step ∈ steps marks index past) : step.index < index + past.length := by
  induction past generalizing marks index with
  | nil => cases h
  | cons x rest ih =>
    obtain ⟨c, ok⟩ := x
    rw [List.length_cons]
    cases ok with
    | false =>
      have hrest := ih h
      omega
    | true =>
      obtain h | h := List.mem_append.1 h
      · rw [index_of_emitted h]
        omega
      · have hrest := ih h
        omega

end LinearPass
end BlockTemplate
