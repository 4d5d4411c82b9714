import BlockTemplate.Proofs.Outcome
import BlockTemplate.Proofs.Session.Run
import BlockTemplate.Session.Flat

/-! The indices in a tree are those of calls that have been made, and what flattening blames is one
of them. -/
namespace BlockTemplate

mutual

/-- All indices in the node are below `n`. -/
def Node.Below (n : Nat) : Node → Prop
  | .action index _ => index < n
  | .scope _ openAt elseAt closeAt body none =>
    openAt < n ∧ (∀ i ∈ elseAt, i < n) ∧ (∀ i ∈ closeAt, i < n) ∧ NodesBelow n body
  | .scope _ openAt elseAt closeAt body (some elseBody) =>
    openAt < n ∧ (∀ i ∈ elseAt, i < n) ∧ (∀ i ∈ closeAt, i < n) ∧ NodesBelow n body ∧
      NodesBelow n elseBody

def NodesBelow (n : Nat) : List Node → Prop
  | [] => True
  | x :: rest => x.Below n ∧ NodesBelow n rest

end

theorem nodesBelow_append (n : Nat) (xs ys : List Node) :
    NodesBelow n (xs ++ ys) ↔ NodesBelow n xs ∧ NodesBelow n ys := by
  induction xs with
  | nil => simp [NodesBelow]
  | cons x xs ih => simp [NodesBelow, ih, and_assoc]

theorem below_mono {n m : Nat} (hle : n ≤ m) {o : Option Nat} (h : ∀ i ∈ o, i < n) :
    ∀ i ∈ o, i < m :=
  fun i hi => Nat.lt_of_lt_of_le (h i hi) hle

mutual

theorem Node.Below.mono {n m : Nat} (hle : n ≤ m) (x : Node) (h : x.Below n) : x.Below m := by
  match x with
  | .action index call => exact Nat.lt_of_lt_of_le h hle
  | .scope header openAt elseAt closeAt body none =>
    obtain ⟨hopen, helse, hclose, hbody⟩ := h
    exact ⟨Nat.lt_of_lt_of_le hopen hle, below_mono hle helse, below_mono hle hclose,
      NodesBelow.mono hle body hbody⟩
  | .scope header openAt elseAt closeAt body (some elseBody) =>
    obtain ⟨hopen, helse, hclose, hbody, hother⟩ := h
    exact ⟨Nat.lt_of_lt_of_le hopen hle, below_mono hle helse, below_mono hle hclose,
      NodesBelow.mono hle body hbody, NodesBelow.mono hle elseBody hother⟩

theorem NodesBelow.mono {n m : Nat} (hle : n ≤ m) (nodes : List Node) (h : NodesBelow n nodes) :
    NodesBelow m nodes := by
  match nodes with
  | [] => trivial
  | x :: rest => exact ⟨Node.Below.mono hle x h.1, NodesBelow.mono hle rest h.2⟩

end

namespace OpenScope

structure Below (n : Nat) (o : OpenScope) : Prop where
  openAt : o.openAt < n
  elseAt : ∀ i ∈ o.elseAt, i < n
  body : NodesBelow n o.body
  others : NodesBelow n o.others

theorem Below.mono {n m : Nat} {o : OpenScope} (h : o.Below n) (hle : n ≤ m) : o.Below m :=
  ⟨Nat.lt_of_lt_of_le h.openAt hle, below_mono hle h.elseAt, h.body.mono hle, h.others.mono hle⟩

theorem Below.push {n : Nat} {o : OpenScope} (h : o.Below n) {x : Node} (hx : x.Below n) :
    (o.push x).Below n := by
  have hone : NodesBelow n [x] := ⟨hx, trivial⟩
  obtain ⟨_, hs⟩ | ⟨_, hs⟩ := o.push_cases x <;> rw [hs]
  · exact ⟨h.openAt, h.elseAt, (nodesBelow_append n _ _).2 ⟨h.body, hone⟩, h.others⟩
  · exact ⟨h.openAt, h.elseAt, h.body, (nodesBelow_append n _ _).2 ⟨h.others, hone⟩⟩

theorem Below.toNode {n : Nat} {o : OpenScope} (h : o.Below n) {closeAt : Option Nat}
    (hclose : ∀ i ∈ closeAt, i < n) : (o.toNode closeAt).Below n := by
  have hothers := h.others
  rw [OpenScope.others] at hothers
  rw [OpenScope.toNode]
  cases hbody : o.elseBody with
  | none => exact ⟨h.openAt, h.elseAt, hclose, h.body⟩
  | some nodes =>
    rw [hbody] at hothers
    exact ⟨h.openAt, h.elseAt, hclose, h.body, hothers⟩

end OpenScope

namespace Session

/-- The session knows only indices of calls that it has seen. -/
structure Below (n : Nat) (s : Session) : Prop where
  root : NodesBelow n s.root
  opened : ∀ o ∈ s.opened, o.Below n

theorem Below.empty : Session.empty.Below Session.empty.next :=
  ⟨trivial, by simp [Session.empty]⟩

theorem Below.skip {n : Nat} {s : Session} (h : s.Below n) : s.skip.Below (n + 1) :=
  ⟨h.root.mono (Nat.le_succ n), fun o ho => (h.opened o ho).mono (Nat.le_succ n)⟩

theorem Below.push {n : Nat} {s : Session} (h : s.Below n) {x : Node} (hx : x.Below n) :
    (s.push x).Below n := by
  have hopened := h.opened
  unfold Session.push
  split
  · next hs => exact ⟨(nodesBelow_append n _ _).2 ⟨h.root, hx, trivial⟩, by simp [hs]⟩
  · next top rest hs =>
    rw [hs, List.forall_mem_cons] at hopened
    exact ⟨h.root, List.forall_mem_cons.2 ⟨hopened.1.push hx, hopened.2⟩⟩

/-- One call keeps every index below the number of calls. -/
theorem Below.after {s : Session} (h : s.Below s.next) (c : SessionCall) :
    (s.after c).Below (s.after c).next := by
  have hskip := h.skip
  rw [after_next]
  cases c with
  | declare name scope kind => exact ⟨hskip.root, hskip.opened⟩
  | add a =>
    obtain ⟨_, hs⟩ | ⟨_, hs⟩ := s.add_cases a <;> rw [hs]
    · exact hskip.push (Nat.lt_succ_self s.next)
    · exact hskip
  | openScope header =>
    obtain ⟨_, hs⟩ | ⟨_, hs⟩ := s.openScope_cases header <;> rw [hs]
    · refine ⟨hskip.root, List.forall_mem_cons.2 ⟨?_, hskip.opened⟩⟩
      exact ⟨Nat.lt_succ_self s.next, by simp, trivial, by simp [NodesBelow]⟩
    · exact hskip
  | elseBranch =>
    obtain ⟨top, rest, hopened, _, _, _, hs⟩ | ⟨_, hs⟩ := s.elseBranch_cases <;> rw [hs]
    · have hall := hskip.opened
      rw [show s.skip.opened = top :: rest from hopened, List.forall_mem_cons] at hall
      refine ⟨hskip.root, List.forall_mem_cons.2 ⟨?_, hall.2⟩⟩
      exact ⟨hall.1.openAt, by simp, hall.1.body, hall.1.others⟩
    · exact hskip
  | close =>
    obtain ⟨top, rest, hopened, _, hs⟩ | ⟨_, _, hs⟩ := s.close_cases <;> rw [hs]
    · have hall := hskip.opened
      rw [show s.skip.opened = top :: rest from hopened, List.forall_mem_cons] at hall
      have hnode : (top.toNode (some s.next)).Below (s.next + 1) := hall.1.toNode (by simp)
      refine Below.push ?_ hnode
      exact ⟨hskip.root, hall.2⟩
    · exact hskip

theorem Below.run {s : Session} (h : s.Below s.next) (calls : List SessionCall) :
    (s.run calls).Below (s.run calls).next := by
  induction calls generalizing s with
  | nil => exact h
  | cons c rest ih => exact ih (h.after c)

theorem fold_below {n : Nat} {x : Node} (hx : x.Below n) {scopes : List OpenScope}
    (h : ∀ o ∈ scopes, o.Below n) : (fold x scopes).Below n := by
  induction scopes generalizing x with
  | nil => exact hx
  | cons o rest ih =>
    rw [List.forall_mem_cons] at h
    exact ih ((h.1.push hx).toNode (by simp)) h.2

theorem Below.finish {n : Nat} {s : Session} (h : s.Below n) : NodesBelow n s.finish.nodes := by
  have hopened := h.opened
  unfold Session.finish
  split
  · exact h.root
  · next top rest hs =>
    rw [hs, List.forall_mem_cons] at hopened
    refine (nodesBelow_append n _ _).2 ⟨h.root, ?_, trivial⟩
    exact fold_below (hopened.1.toNode (by simp)) hopened.2

end Session

/-- The error blames call number `i`, and not for a variable. -/
structure CompileError.At (i : Nat) (e : CompileError) : Prop where
  index : e.index? = some i
  known : ∀ j name, e ≠ .unknownVariable j name

/-- The error blames one of the first `n` calls. -/
def CompileError.AtSome (n : Nat) (e : CompileError) : Prop := ∃ i < n, e.At i

theorem CompileError.unbalanced_atSome {n i : Nat} (h : i < n) (fault : ScopeFault) :
    (CompileError.unbalancedScope i fault).AtSome n :=
  ⟨i, h, rfl, by simp⟩

mutual

theorem Node.flatten_meets {n : Nat} (x : Node) (h : x.Below n) :
    Meets (fun steps => ∀ step ∈ steps, step.index < n) (CompileError.AtSome n) x.flatten := by
  match x with
  | .action index call => exact List.forall_mem_singleton.2 h
  | .scope header openAt elseAt none body none =>
    exact CompileError.unbalanced_atSome h.1 _
  | .scope header openAt elseAt none body (some elseBody) =>
    exact CompileError.unbalanced_atSome h.1 _
  | .scope header openAt elseAt (some closeAt) body none =>
    obtain ⟨hopen, _, hclose, hbody⟩ := h
    have hclose := hclose closeAt rfl
    refine (flattenNodes_meets body hbody).bind fun inner hinner => ?_
    intro step hstep
    simp only [List.cons_append, List.mem_cons, List.mem_append, List.not_mem_nil,
      or_false] at hstep
    obtain rfl | hstep | rfl := hstep
    · exact hopen
    · exact hinner step hstep
    · exact hclose
  | .scope header openAt elseAt (some closeAt) body (some elseBody) =>
    obtain ⟨hopen, helse, hclose, hbody, hother⟩ := h
    have hclose := hclose closeAt rfl
    have hswitch : elseAt.getD closeAt < n := by
      cases elseAt with
      | none => exact hclose
      | some i => exact helse i rfl
    refine (flattenNodes_meets body hbody).bind fun inner hinner => ?_
    refine (flattenNodes_meets elseBody hother).bind fun other hother => ?_
    intro step hstep
    simp only [List.cons_append, List.append_assoc, List.mem_cons, List.mem_append,
      List.not_mem_nil, or_false] at hstep
    obtain rfl | hstep | rfl | hstep | rfl := hstep
    · exact hopen
    · exact hinner step hstep
    · exact hswitch
    · exact hother step hstep
    · exact hclose

theorem flattenNodes_meets {n : Nat} (nodes : List Node) (h : NodesBelow n nodes) :
    Meets (fun steps => ∀ step ∈ steps, step.index < n) (CompileError.AtSome n)
      (flattenNodes nodes) := by
  match nodes with
  | [] => exact fun step hstep => absurd hstep List.not_mem_nil
  | x :: rest =>
    refine (x.flatten_meets h.1).bind fun first hfirst => ?_
    refine (flattenNodes_meets rest h.2).bind fun others hothers => ?_
    intro step hstep
    exact (List.mem_append.1 hstep).elim (hfirst step) (hothers step)

end

theorem checkBalance_meets {n : Nat} (steps : List Step) (hsteps : ∀ step ∈ steps, step.index < n)
    (opened : List Nat) (hopened : ∀ i ∈ opened, i < n) :
    Meets (fun _ => True) (CompileError.AtSome n) (checkBalance opened steps) := by
  induction steps generalizing opened with
  | nil =>
    unfold checkBalance
    split
    · next openAt hlast =>
      exact CompileError.unbalanced_atSome (hopened _ (List.mem_of_getLast? hlast)) _
    · trivial
  | cons step rest ih =>
    rw [List.forall_mem_cons] at hsteps
    cases step with
    | action i call => exact ih hsteps.2 opened hopened
    | opened i header => exact ih hsteps.2 _ (List.forall_mem_cons.2 ⟨hsteps.1, hopened⟩)
    | switched i kind => exact ih hsteps.2 opened hopened
    | closed i kind =>
      cases opened with
      | nil => exact CompileError.unbalanced_atSome hsteps.1 _
      | cons j outer => exact ih hsteps.2 outer (List.forall_mem_cons.1 hopened).2

theorem flatten_meets {n : Nat} {nodes : List Node} (h : NodesBelow n nodes) :
    Meets (fun steps => ∀ step ∈ steps, step.index < n) (CompileError.AtSome n)
      (flatten nodes) := by
  refine (flattenNodes_meets nodes h).bind fun steps hsteps => ?_
  refine (checkBalance_meets steps hsteps [] ?_).bind fun _ _ => hsteps
  simp

end BlockTemplate
