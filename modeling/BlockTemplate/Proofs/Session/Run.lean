import BlockTemplate.Session.Basic

/-! Runs of a session: any calls in any order, going on after those that are refused. In every open
scope the kind, the else branch, its index and the place of the next node agree. -/
namespace BlockTemplate

/-- A call with its arguments. -/
inductive SessionCall where
  | declare (name : String) (scope : VariableClass) (kind : Option Kind)
  | add (a : Action)
  | openScope (h : Header)
  | elseBranch
  | close

namespace Session

def perform (s : Session) : SessionCall → Outcome
  | .declare name scope kind => (.ok (), s.declare name scope kind)
  | .add a => s.add a
  | .openScope h => s.openScope h
  | .elseBranch => s.elseBranch
  | .close => s.close

def accepts (s : Session) (c : SessionCall) : Bool := (s.perform c).1.isOk

def after (s : Session) (c : SessionCall) : Session := (s.perform c).2

def run (s : Session) : List SessionCall → Session
  | [] => s
  | c :: rest => (s.after c).run rest

/-- The calls of a run, each with whether it was accepted. -/
def trace (s : Session) : List SessionCall → List (SessionCall × Bool)
  | [] => []
  | c :: rest => (c, s.accepts c) :: (s.after c).trace rest

@[simp] theorem push_next (s : Session) (n : Node) : (s.push n).next = s.next := by
  unfold push
  split <;> rfl

@[simp] theorem skip_next (s : Session) : s.skip.next = s.next + 1 := rfl

/-- What an action does: all its variables are visible and it joins the innermost branch, or it
only takes an index. -/
theorem add_cases (s : Session) (a : Action) :
    (s.accepts (.add a) = true ∧ s.after (.add a) = s.skip.push (.action s.next a)) ∨
    (s.accepts (.add a) = false ∧ s.after (.add a) = s.skip) := by
  cases hv : s.unknown? a.params with
  | none => exact .inl (by simp [accepts, after, perform, add, hv, Except.isOk, Except.toBool])
  | some v => exact .inr (by simp [accepts, after, perform, add, hv, Except.isOk, Except.toBool])

theorem openScope_cases (s : Session) (h : Header) :
    (s.accepts (.openScope h) = true ∧ s.after (.openScope h) = { s.skip with
      opened := .start h s.next :: s.opened
      declarations := s.declarations.enter }) ∨
    (s.accepts (.openScope h) = false ∧ s.after (.openScope h) = s.skip) := by
  cases hv : s.unknown? h.values with
  | none =>
    exact .inl (by simp [accepts, after, perform, openScope, hv, Except.isOk, Except.toBool])
  | some v =>
    exact .inr (by simp [accepts, after, perform, openScope, hv, Except.isOk, Except.toBool])

/-- The else branch is entered once, and only in an if-else scope. -/
theorem elseBranch_cases (s : Session) :
    (∃ top rest, s.opened = top :: rest ∧ top.header.kind = .ifElse ∧ top.inElse = false ∧
      s.accepts .elseBranch = true ∧ s.after .elseBranch = { s.skip with
        opened := top.switch s.next :: rest
        declarations := s.declarations.exit.enter }) ∨
    (s.accepts .elseBranch = false ∧ s.after .elseBranch = s.skip) := by
  simp only [accepts, after, perform, elseBranch]
  cases s.opened with
  | nil => exact .inr ⟨rfl, rfl⟩
  | cons top rest =>
    by_cases hkind : top.header.kind = .ifElse
    · cases helse : top.inElse with
      | false =>
        refine .inl ⟨top, rest, rfl, hkind, helse, ?_⟩
        simp [hkind, helse, Except.isOk, Except.toBool]
      | true => exact .inr (by simp [hkind, helse, Except.isOk, Except.toBool])
    · exact .inr (by simp [hkind, Except.isOk, Except.toBool])

theorem close_cases (s : Session) :
    (∃ top rest, s.opened = top :: rest ∧
      s.accepts .close = true ∧ s.after .close = { s.skip with
        opened := rest
        declarations := s.declarations.exit }.push (top.toNode (some s.next))) ∨
    (s.opened = [] ∧ s.accepts .close = false ∧ s.after .close = s.skip) := by
  simp only [accepts, after, perform, close]
  cases s.opened with
  | nil => exact .inr ⟨rfl, rfl, rfl⟩
  | cons top rest => exact .inl ⟨top, rest, rfl, rfl, rfl⟩

/-- Every call takes one index, accepted or not. -/
theorem after_next (s : Session) (c : SessionCall) : (s.after c).next = s.next + 1 := by
  cases c with
  | declare name scope kind => rfl
  | add a =>
    obtain ⟨_, h⟩ | ⟨_, h⟩ := s.add_cases a <;> simp [h]
  | openScope header =>
    obtain ⟨_, h⟩ | ⟨_, h⟩ := s.openScope_cases header <;> simp [h]
  | elseBranch =>
    obtain ⟨_, _, _, _, _, _, h⟩ | ⟨_, h⟩ := s.elseBranch_cases <;> simp [h]
  | close =>
    obtain ⟨_, _, _, _, h⟩ | ⟨_, _, h⟩ := s.close_cases <;> simp [h]

theorem run_next (s : Session) (calls : List SessionCall) :
    (s.run calls).next = s.next + calls.length := by
  induction calls generalizing s with
  | nil => rfl
  | cons call rest ih =>
    rw [run, ih, after_next, List.length_cons]
    omega

theorem run_empty_next (calls : List SessionCall) :
    (Session.empty.run calls).next = calls.length := by
  rw [run_next]
  exact Nat.zero_add _

theorem run_append (s : Session) (xs ys : List SessionCall) :
    s.run (xs ++ ys) = (s.run xs).run ys := by
  induction xs generalizing s with
  | nil => rfl
  | cons c xs ih => exact ih (s.after c)

theorem after_refused (s : Session) {c : SessionCall} (h : s.accepts c = false) :
    s.after c = s.skip := by
  cases c with
  | declare name scope kind => simp [accepts, perform, Except.isOk, Except.toBool] at h
  | add a =>
    obtain ⟨hok, _⟩ | ⟨_, hs⟩ := s.add_cases a
    · simp [hok] at h
    · exact hs
  | openScope header =>
    obtain ⟨hok, _⟩ | ⟨_, hs⟩ := s.openScope_cases header
    · simp [hok] at h
    · exact hs
  | elseBranch =>
    obtain ⟨_, _, _, _, _, hok, _⟩ | ⟨_, hs⟩ := s.elseBranch_cases
    · simp [hok] at h
    · exact hs
  | close =>
    obtain ⟨_, _, _, hok, _⟩ | ⟨_, _, hs⟩ := s.close_cases
    · simp [hok] at h
    · exact hs

end Session

namespace OpenScope

/-- What stands in the else branch. -/
def others (o : OpenScope) : List Node := o.elseBody.getD []

section Start
variable (header : Header) (openAt : Nat)

@[simp] theorem start_header : (start header openAt).header = header := rfl

@[simp] theorem start_openAt : (start header openAt).openAt = openAt := rfl

@[simp] theorem start_elseAt : (start header openAt).elseAt = none := rfl

@[simp] theorem start_body : (start header openAt).body = [] := rfl

@[simp] theorem start_others : (start header openAt).others = [] := by
  by_cases hkind : header.kind = .ifElse <;> simp [start, others, hkind]

end Start

section Switch
variable (o : OpenScope) (index : Nat)

@[simp] theorem switch_header : (o.switch index).header = o.header := rfl

@[simp] theorem switch_openAt : (o.switch index).openAt = o.openAt := rfl

@[simp] theorem switch_elseAt : (o.switch index).elseAt = some index := rfl

@[simp] theorem switch_inElse : (o.switch index).inElse = true := rfl

@[simp] theorem switch_body : (o.switch index).body = o.body := rfl

@[simp] theorem switch_others : (o.switch index).others = o.others := rfl

end Switch

/-- A node joins the branch that is being built, at its end. -/
theorem push_cases (o : OpenScope) (n : Node) :
    (o.inElse = false ∧ o.push n = { o with body := o.body ++ [n] }) ∨
    (o.inElse = true ∧ o.push n = { o with elseBody := some (o.others ++ [n]) }) := by
  unfold push
  cases h : o.inElse with
  | false => exact .inl ⟨rfl, rfl⟩
  | true => exact .inr ⟨rfl, rfl⟩

/-- Only an if-else scope has an else branch. It is being built if it has an index, and nothing is
in it before. -/
structure Branched (o : OpenScope) : Prop where
  hasElse : o.elseBody.isSome = true ↔ o.header.kind = .ifElse
  entered : o.inElse = o.elseAt.isSome
  ifElse : o.inElse = true → o.header.kind = .ifElse
  untouched : o.inElse = false → o.others = []

namespace Branched
variable {o : OpenScope}

theorem start (header : Header) (openAt : Nat) : (OpenScope.start header openAt).Branched := by
  refine ⟨?_, rfl, nofun, fun _ => start_others header openAt⟩
  by_cases hkind : header.kind = .ifElse <;> simp [OpenScope.start, hkind]

theorem switch (h : o.Branched) (hkind : o.header.kind = .ifElse) (index : Nat) :
    (o.switch index).Branched :=
  ⟨h.hasElse, rfl, fun _ => hkind, nofun⟩

theorem push (h : o.Branched) (n : Node) : (o.push n).Branched := by
  obtain ⟨hin, hs⟩ | ⟨hin, hs⟩ := o.push_cases n <;> rw [hs]
  · exact ⟨h.hasElse, h.entered, h.ifElse, h.untouched⟩
  · refine ⟨iff_of_true rfl (h.ifElse hin), h.entered, h.ifElse, fun hout => ?_⟩
    exact absurd (hin.symm.trans hout) (by simp)

theorem elseAt_eq_none (h : o.Branched) : o.elseAt = none ↔ o.inElse = false := by
  rw [h.entered, Option.isSome_eq_false_iff, Option.isNone_iff_eq_none]

theorem elseBody_eq (h : o.Branched) :
    o.elseBody = if o.header.kind = .ifElse then some o.others else none := by
  cases hbody : o.elseBody with
  | none =>
    have hkind : o.header.kind ≠ .ifElse := fun heq => by
      have hsome := h.hasElse.2 heq
      simp [hbody] at hsome
    rw [if_neg hkind]
  | some nodes =>
    rw [if_pos (h.hasElse.1 (by simp [hbody])), others, hbody]
    rfl

end Branched
end OpenScope

namespace Session

def Branched (s : Session) : Prop := ∀ o ∈ s.opened, o.Branched

namespace Branched
variable {s : Session}

theorem empty : Session.empty.Branched := fun o ho => by cases ho

theorem push (h : s.Branched) (n : Node) : (s.push n).Branched := by
  unfold Session.push
  split
  · exact h
  · next top rest hs =>
    rw [Branched, hs, List.forall_mem_cons] at h
    exact List.forall_mem_cons.2 ⟨h.1.push n, h.2⟩

theorem after (h : s.Branched) (c : SessionCall) : (s.after c).Branched := by
  have hskip : s.skip.Branched := h
  cases c with
  | declare name scope kind => exact h
  | add a =>
    obtain ⟨_, hs⟩ | ⟨_, hs⟩ := s.add_cases a <;> rw [hs]
    · exact hskip.push _
    · exact hskip
  | openScope header =>
    obtain ⟨_, hs⟩ | ⟨_, hs⟩ := s.openScope_cases header <;> rw [hs]
    · exact List.forall_mem_cons.2 ⟨.start header s.next, h⟩
    · exact hskip
  | elseBranch =>
    obtain ⟨top, rest, hopened, hkind, _, _, hs⟩ | ⟨_, hs⟩ := s.elseBranch_cases <;> rw [hs]
    · rw [Branched, hopened, List.forall_mem_cons] at h
      exact List.forall_mem_cons.2 ⟨h.1.switch hkind s.next, h.2⟩
    · exact hskip
  | close =>
    obtain ⟨top, rest, hopened, _, hs⟩ | ⟨_, _, hs⟩ := s.close_cases <;> rw [hs]
    · rw [Branched, hopened, List.forall_mem_cons] at h
      have hrest : Session.Branched { s.skip with
          opened := rest
          declarations := s.declarations.exit } := h.2
      exact hrest.push _
    · exact hskip

theorem run (h : s.Branched) (calls : List SessionCall) : (s.run calls).Branched := by
  induction calls generalizing s with
  | nil => exact h
  | cons c rest ih => exact ih (h.after c)

end Branched
end Session
end BlockTemplate
