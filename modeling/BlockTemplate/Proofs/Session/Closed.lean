import BlockTemplate.Proofs.Outcome
import BlockTemplate.Session.Flat

/-! Trees in which every scope is closed, at any depth. They flatten without a refusal, and no
others do; their flat form is balanced. -/
namespace BlockTemplate

mutual

/-- Every scope of the node has a close index, also those inside it. -/
def Node.Closed : Node → Prop
  | .action _ _ => True
  | .scope _ _ _ closeAt body none => closeAt.isSome ∧ ClosedNodes body
  | .scope _ _ _ closeAt body (some elseBody) =>
    closeAt.isSome ∧ ClosedNodes body ∧ ClosedNodes elseBody

def ClosedNodes : List Node → Prop
  | [] => True
  | n :: rest => n.Closed ∧ ClosedNodes rest

end

mutual

/-- The flat form of a node. A scope that is not closed is left without a close. -/
def Node.steps : Node → List Step
  | .action index call => [.action index call]
  | .scope header openAt _ closeAt body none =>
    .opened openAt header :: stepsOf body ++ closeAt.toList.map (.closed · header.kind)
  | .scope header openAt elseAt closeAt body (some elseBody) =>
    .opened openAt header :: stepsOf body ++
      (elseAt.or closeAt).toList.map (.switched · header.kind) ++ stepsOf elseBody ++
      closeAt.toList.map (.closed · header.kind)

def stepsOf : List Node → List Step
  | [] => []
  | n :: rest => n.steps ++ stepsOf rest

end

theorem closedNodes_append (xs ys : List Node) :
    ClosedNodes (xs ++ ys) ↔ ClosedNodes xs ∧ ClosedNodes ys := by
  induction xs with
  | nil => simp [ClosedNodes]
  | cons n xs ih => simp [ClosedNodes, ih, and_assoc]

theorem stepsOf_append (xs ys : List Node) : stepsOf (xs ++ ys) = stepsOf xs ++ stepsOf ys := by
  induction xs with
  | nil => rfl
  | cons n xs ih => simp [stepsOf, ih]

theorem stepsOf_singleton (n : Node) : stepsOf [n] = n.steps := by simp [stepsOf]

mutual

theorem Node.flatten_of_closed (n : Node) (h : n.Closed) : n.flatten = .ok n.steps := by
  match n with
  | .action index call => rfl
  | .scope header openAt elseAt closeAt body none =>
    obtain ⟨hclose, hbody⟩ := h
    obtain ⟨c, rfl⟩ := Option.isSome_iff_exists.mp hclose
    simp only [Node.flatten, flattenNodes_of_closed body hbody]
    rfl
  | .scope header openAt elseAt closeAt body (some elseBody) =>
    obtain ⟨hclose, hbody, helse⟩ := h
    obtain ⟨c, rfl⟩ := Option.isSome_iff_exists.mp hclose
    simp only [Node.flatten, flattenNodes_of_closed body hbody,
      flattenNodes_of_closed elseBody helse]
    cases elseAt <;> simp [Node.steps, bind, Except.bind, pure, Except.pure]

theorem flattenNodes_of_closed (nodes : List Node) (h : ClosedNodes nodes) :
    flattenNodes nodes = .ok (stepsOf nodes) := by
  match nodes with
  | [] => rfl
  | n :: rest =>
    simp only [flattenNodes, n.flatten_of_closed h.1, flattenNodes_of_closed rest h.2]
    rfl

end

mutual

/-- A closed node leaves the list of open scopes as it was. -/
theorem Node.checkBalance_steps (n : Node) (h : n.Closed) (opened : List Nat)
    (after : List Step) : checkBalance opened (n.steps ++ after) = checkBalance opened after := by
  match n with
  | .action index call => simp [Node.steps, checkBalance]
  | .scope header openAt elseAt closeAt body none =>
    obtain ⟨hclose, hbody⟩ := h
    obtain ⟨c, rfl⟩ := Option.isSome_iff_exists.mp hclose
    simp [Node.steps, checkBalance, checkBalance_stepsOf body hbody]
  | .scope header openAt elseAt closeAt body (some elseBody) =>
    obtain ⟨hclose, hbody, helse⟩ := h
    obtain ⟨c, rfl⟩ := Option.isSome_iff_exists.mp hclose
    cases elseAt <;>
      simp [Node.steps, checkBalance, checkBalance_stepsOf body hbody,
        checkBalance_stepsOf elseBody helse]

theorem checkBalance_stepsOf (nodes : List Node) (h : ClosedNodes nodes) (opened : List Nat)
    (after : List Step) :
    checkBalance opened (stepsOf nodes ++ after) = checkBalance opened after := by
  match nodes with
  | [] => rfl
  | n :: rest =>
    rw [stepsOf, List.append_assoc, n.checkBalance_steps h.1,
      checkBalance_stepsOf rest h.2]

end

/-- The balance check has nothing to refuse once the scopes are closed. -/
theorem flatten_of_closed (nodes : List Node) (h : ClosedNodes nodes) :
    flatten nodes = .ok (stepsOf nodes) := by
  have hbalance := checkBalance_stepsOf nodes h [] []
  rw [List.append_nil] at hbalance
  simp only [flatten, flattenNodes_of_closed nodes h, bind, Except.bind, hbalance]
  rfl

mutual

theorem Node.closed_of_flatten (n : Node) {steps : List Step} (h : n.flatten = .ok steps) :
    n.Closed := by
  match n with
  | .action index call => trivial
  | .scope header openAt elseAt none body elseBody =>
    rw [Node.flatten] at h
    cases h
  | .scope header openAt elseAt (some closeAt) body none =>
    rw [Node.flatten] at h
    obtain ⟨inner, hinner, _⟩ := bind_eq_ok.1 h
    exact ⟨rfl, closedNodes_of_flatten body hinner⟩
  | .scope header openAt elseAt (some closeAt) body (some elseBody) =>
    rw [Node.flatten] at h
    obtain ⟨inner, hinner, h⟩ := bind_eq_ok.1 h
    obtain ⟨other, hother, _⟩ := bind_eq_ok.1 h
    exact ⟨rfl, closedNodes_of_flatten body hinner, closedNodes_of_flatten elseBody hother⟩

theorem closedNodes_of_flatten (nodes : List Node) {steps : List Step}
    (h : flattenNodes nodes = .ok steps) : ClosedNodes nodes := by
  match nodes with
  | [] => trivial
  | n :: rest =>
    obtain ⟨first, hfirst, h⟩ := bind_eq_ok.1 h
    obtain ⟨others, hothers, _⟩ := bind_eq_ok.1 h
    exact ⟨n.closed_of_flatten hfirst, closedNodes_of_flatten rest hothers⟩

end

theorem flatten_eq_ok {nodes : List Node} {steps : List Step} (h : flatten nodes = .ok steps) :
    ClosedNodes nodes ∧ steps = stepsOf nodes := by
  obtain ⟨flat, hflat, _⟩ := bind_eq_ok.1 h
  have hclosed := closedNodes_of_flatten nodes hflat
  rw [flatten_of_closed nodes hclosed] at h
  exact ⟨hclosed, (Except.ok.inj h).symm⟩

end BlockTemplate
