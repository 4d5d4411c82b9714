import BlockTemplate.Proofs.Outcome
import BlockTemplate.Proofs.Session.LinearPass

/-! The calls that a tree was built by. Reading them off the tree of a session gives back the
accepted calls in order, so nesting in the tree is nesting of calls. -/
namespace BlockTemplate

mutual

/-- The calls of a node with their indices. Entering the else branch is a call of its own. -/
def Node.calls : Node → List (Nat × SessionCall)
  | .action index call => [(index, .add call)]
  | .scope header openAt _ closeAt body none =>
    (openAt, .openScope header) :: callsOf body ++ closeAt.toList.map (·, .close)
  | .scope header openAt elseAt closeAt body (some elseBody) =>
    (openAt, .openScope header) :: callsOf body ++ elseAt.toList.map (·, .elseBranch) ++
      callsOf elseBody ++ closeAt.toList.map (·, .close)

def callsOf : List Node → List (Nat × SessionCall)
  | [] => []
  | n :: rest => n.calls ++ callsOf rest

end

mutual

/-- Closed at every depth, with an else branch in exactly the if-else scopes; one that was never
entered is empty. -/
def Node.Whole : Node → Prop
  | .action _ _ => True
  | .scope header _ elseAt closeAt body none =>
    closeAt.isSome ∧ header.kind ≠ .ifElse ∧ elseAt = none ∧ WholeNodes body
  | .scope header _ elseAt closeAt body (some elseBody) =>
    closeAt.isSome ∧ header.kind = .ifElse ∧ (elseAt = none → elseBody = []) ∧
      WholeNodes body ∧ WholeNodes elseBody

def WholeNodes : List Node → Prop
  | [] => True
  | n :: rest => n.Whole ∧ WholeNodes rest

end

theorem callsOf_append (xs ys : List Node) : callsOf (xs ++ ys) = callsOf xs ++ callsOf ys := by
  induction xs with
  | nil => rfl
  | cons n xs ih => simp [callsOf, ih]

theorem callsOf_singleton (n : Node) : callsOf [n] = n.calls := by simp [callsOf]

theorem wholeNodes_append (xs ys : List Node) :
    WholeNodes (xs ++ ys) ↔ WholeNodes xs ∧ WholeNodes ys := by
  induction xs with
  | nil => simp [WholeNodes]
  | cons n xs ih => simp [WholeNodes, ih, and_assoc]

mutual

theorem Node.Whole.closed (n : Node) (h : n.Whole) : n.Closed := by
  match n with
  | .action index call => trivial
  | .scope header openAt elseAt closeAt body none =>
    obtain ⟨hclose, _, _, hbody⟩ := h
    exact ⟨hclose, hbody.closed⟩
  | .scope header openAt elseAt closeAt body (some elseBody) =>
    obtain ⟨hclose, _, _, hbody, helse⟩ := h
    exact ⟨hclose, hbody.closed, helse.closed⟩

theorem WholeNodes.closed {nodes : List Node} (h : WholeNodes nodes) : ClosedNodes nodes := by
  match nodes with
  | [] => trivial
  | n :: rest => exact ⟨Node.Whole.closed n h.1, h.2.closed⟩

end

/-- The call that a step emits a block of its own for. -/
def Step.call? : Step → Option SessionCall
  | .action _ a => some (.add a)
  | .opened _ h => some (.openScope h)
  | .switched _ _ | .closed _ _ => none

/-- The calls that a step may come from. An else branch that was never entered is marked with the
close of its scope. -/
def Step.MadeBy : Step → SessionCall → Prop
  | .action _ a, c => c = .add a
  | .opened _ h, c => c = .openScope h
  | .switched _ _, c => c = .elseBranch ∨ c = .close
  | .closed _ _, c => c = .close

mutual

theorem Node.made_of_mem (n : Node) {step : Step} (h : step ∈ n.steps) :
    ∃ c, step.MadeBy c ∧ (step.index, c) ∈ n.calls := by
  match n with
  | .action index call =>
    obtain rfl := List.mem_singleton.1 h
    exact ⟨_, rfl, List.mem_singleton_self _⟩
  | .scope header openAt elseAt closeAt body none =>
    rw [Node.steps, List.cons_append, List.mem_cons, List.mem_append] at h
    simp only [Node.calls, List.cons_append, List.mem_cons, List.mem_append]
    obtain rfl | h | h := h
    · exact ⟨_, rfl, .inl rfl⟩
    · obtain ⟨c, hmade, hc⟩ := made_of_mem body h
      exact ⟨c, hmade, .inr (.inl hc)⟩
    · obtain ⟨i, hi, rfl⟩ := List.mem_map.1 h
      exact ⟨.close, rfl, .inr (.inr (List.mem_map_of_mem hi))⟩
  | .scope header openAt elseAt closeAt body (some elseBody) =>
    simp only [Node.steps, List.cons_append, List.mem_cons, List.mem_append] at h
    simp only [Node.calls, List.cons_append, List.mem_cons, List.mem_append]
    obtain rfl | ((h | h) | h) | h := h
    · exact ⟨_, rfl, .inl rfl⟩
    · obtain ⟨c, hmade, hc⟩ := made_of_mem body h
      exact ⟨c, hmade, .inr (.inl (.inl (.inl hc)))⟩
    · obtain ⟨i, hi, rfl⟩ := List.mem_map.1 h
      cases elseAt with
      | none => exact ⟨.close, .inr rfl, .inr (.inr (List.mem_map_of_mem hi))⟩
      | some j => exact ⟨.elseBranch, .inl rfl, .inr (.inl (.inl (.inr (List.mem_map_of_mem hi))))⟩
    · obtain ⟨c, hmade, hc⟩ := made_of_mem elseBody h
      exact ⟨c, hmade, .inr (.inl (.inr hc))⟩
    · obtain ⟨i, hi, rfl⟩ := List.mem_map.1 h
      exact ⟨.close, rfl, .inr (.inr (List.mem_map_of_mem hi))⟩

/-- A step has the index of the call that it comes from. -/
theorem made_of_mem (nodes : List Node) {step : Step} (h : step ∈ stepsOf nodes) :
    ∃ c, step.MadeBy c ∧ (step.index, c) ∈ callsOf nodes := by
  match nodes with
  | [] => cases h
  | n :: rest =>
    rw [stepsOf, List.mem_append] at h
    simp only [callsOf, List.mem_append]
    obtain h | h := h
    · obtain ⟨c, hmade, hc⟩ := n.made_of_mem h
      exact ⟨c, hmade, .inl hc⟩
    · obtain ⟨c, hmade, hc⟩ := made_of_mem rest h
      exact ⟨c, hmade, .inr hc⟩

end

theorem mem_callsOf (nodes : List Node) {step : Step} (h : step ∈ stepsOf nodes) {c : SessionCall}
    (hc : step.call? = some c) : (step.index, c) ∈ callsOf nodes := by
  obtain ⟨made, hmade, hmem⟩ := made_of_mem nodes h
  have heq : made = c := by
    cases step <;> cases hc
    · exact hmade
    · exact hmade
  exact heq ▸ hmem

namespace OpenScope

def calls (o : OpenScope) : List (Nat × SessionCall) :=
  (o.openAt, .openScope o.header) :: callsOf o.body ++
    o.elseAt.toList.map (·, .elseBranch) ++ callsOf o.others

structure Whole (o : OpenScope) : Prop extends o.Branched where
  body : WholeNodes o.body
  others : WholeNodes o.others

theorem Whole.push {o : OpenScope} (h : o.Whole) {n : Node} (hn : n.Whole) : (o.push n).Whole := by
  have hone : WholeNodes [n] := ⟨hn, trivial⟩
  refine ⟨h.toBranched.push n, ?_, ?_⟩ <;>
    obtain ⟨_, hs⟩ | ⟨_, hs⟩ := o.push_cases n <;> rw [hs]
  · exact (wholeNodes_append _ _).mpr ⟨h.body, hone⟩
  · exact h.body
  · exact h.others
  · exact (wholeNodes_append _ _).mpr ⟨h.others, hone⟩

theorem Whole.push_calls {o : OpenScope} (h : o.Whole) (n : Node) :
    (o.push n).calls = o.calls ++ n.calls := by
  obtain ⟨hin, hs⟩ | ⟨_, hs⟩ := o.push_cases n <;> rw [hs]
  · have hnone : o.elseAt = none := h.elseAt_eq_none.2 hin
    have hothers : o.elseBody.getD [] = [] := h.untouched hin
    simp [calls, OpenScope.others, hnone, hothers, callsOf_append, callsOf]
  · simp [calls, OpenScope.others, callsOf_append, callsOf_singleton]

theorem Whole.toNode {o : OpenScope} (h : o.Whole) (i : Nat) : (o.toNode (some i)).Whole := by
  rw [OpenScope.toNode, h.elseBody_eq]
  split
  · next hkind =>
    exact ⟨rfl, hkind, fun hnone => h.untouched (h.elseAt_eq_none.1 hnone), h.body, h.others⟩
  · next hkind =>
    have hin : o.inElse = false := Bool.not_eq_true _ ▸ mt h.ifElse hkind
    exact ⟨rfl, hkind, h.elseAt_eq_none.2 hin, h.body⟩

theorem Whole.toNode_calls {o : OpenScope} (h : o.Whole) (i : Nat) :
    (o.toNode (some i)).calls = o.calls ++ [(i, .close)] := by
  rw [OpenScope.toNode, h.elseBody_eq]
  split
  · simp [Node.calls, calls]
  · next hkind =>
    have hin : o.inElse = false := Bool.not_eq_true _ ▸ mt h.ifElse hkind
    simp [Node.calls, calls, h.elseAt_eq_none.2 hin, h.untouched hin, callsOf]

end OpenScope

/-- The calls of open scopes, innermost first. -/
def callsOfScopes : List OpenScope → List (Nat × SessionCall)
  | [] => []
  | o :: rest => callsOfScopes rest ++ o.calls

/-- The accepted calls that build the tree, with their indices. Declarations leave no node. -/
def treeCalls (index : Nat) : List (SessionCall × Bool) → List (Nat × SessionCall)
  | [] => []
  | (.declare _ _ _, _) :: rest | (_, false) :: rest => treeCalls (index + 1) rest
  | (c, true) :: rest => (index, c) :: treeCalls (index + 1) rest

theorem treeCalls_cons (index : Nat) (x : SessionCall × Bool) (rest : List (SessionCall × Bool)) :
    treeCalls index (x :: rest) = treeCalls index [x] ++ treeCalls (index + 1) rest := by
  obtain ⟨c, ok⟩ := x
  cases c <;> cases ok <;> simp [treeCalls]

theorem mem_treeCalls {index i : Nat} {c : SessionCall} {past : List (SessionCall × Bool)}
    (h : (i, c) ∈ treeCalls index past) :
    ∃ j, i = index + j ∧ past[j]? = some (c, true) := by
  induction past generalizing index with
  | nil => cases h
  | cons x rest ih =>
    rw [treeCalls_cons, List.mem_append] at h
    obtain h | h := h
    · refine ⟨0, ?_⟩
      obtain ⟨call, ok⟩ := x
      cases call <;> cases ok <;> simp_all [treeCalls]
    · obtain ⟨j, rfl, hget⟩ := ih h
      exact ⟨j + 1, by omega, hget⟩

namespace Session

def calls (s : Session) : List (Nat × SessionCall) := callsOf s.root ++ callsOfScopes s.opened

structure Whole (s : Session) : Prop where
  root : WholeNodes s.root
  opened : ∀ o ∈ s.opened, o.Whole

theorem Whole.empty : Session.empty.Whole := ⟨trivial, by simp [Session.empty]⟩

theorem Whole.push {s : Session} (h : s.Whole) {n : Node} (hn : n.Whole) : (s.push n).Whole := by
  cases hs : s.opened with
  | nil =>
    refine ⟨?_, ?_⟩ <;> simp only [Session.push, hs]
    · exact (wholeNodes_append _ _).mpr ⟨h.root, hn, trivial⟩
    · simp
  | cons top rest =>
    have hall := h.opened
    rw [hs, List.forall_mem_cons] at hall
    refine ⟨?_, ?_⟩ <;> simp only [Session.push, hs]
    · exact h.root
    · exact List.forall_mem_cons.mpr ⟨hall.1.push hn, hall.2⟩

theorem Whole.push_calls {s : Session} (h : s.Whole) (n : Node) :
    (s.push n).calls = s.calls ++ n.calls := by
  cases hs : s.opened with
  | nil => simp [Session.push, Session.calls, hs, callsOfScopes, callsOf_append, callsOf_singleton]
  | cons top rest =>
    have htop : top.Whole := h.opened top (by simp [hs])
    simp [Session.push, Session.calls, hs, callsOfScopes, htop.push_calls]

/-- One call: the tree stays whole and grows by that call, or by none. -/
theorem Whole.after {s : Session} (h : s.Whole) (c : SessionCall) :
    (s.after c).Whole ∧
      (s.after c).calls = s.calls ++ treeCalls s.next [(c, s.accepts c)] := by
  have hskip : s.skip.Whole := ⟨h.root, h.opened⟩
  cases c with
  | declare name scope kind =>
    refine ⟨⟨h.root, h.opened⟩, ?_⟩
    rw [treeCalls, treeCalls, List.append_nil]
    rfl
  | add a =>
    obtain ⟨hok, hs⟩ | ⟨hok, hs⟩ := s.add_cases a <;> rw [hok, hs]
    · refine ⟨hskip.push trivial, ?_⟩
      rw [hskip.push_calls]
      rfl
    · exact ⟨hskip, by simp [treeCalls, Session.calls, Session.skip]⟩
  | openScope header =>
    obtain ⟨hok, hs⟩ | ⟨hok, hs⟩ := s.openScope_cases header <;> rw [hok, hs]
    · have hnew : (OpenScope.start header s.next).Whole :=
        ⟨.start header s.next, trivial, by simp [WholeNodes]⟩
      refine ⟨⟨h.root, List.forall_mem_cons.mpr ⟨hnew, h.opened⟩⟩, ?_⟩
      simp [Session.calls, Session.skip, callsOfScopes, OpenScope.calls, callsOf, treeCalls]
    · exact ⟨hskip, by simp [treeCalls, Session.calls, Session.skip]⟩
  | elseBranch =>
    obtain ⟨top, rest, hopened, hkind, hin, hok, hs⟩ | ⟨hok, hs⟩ := s.elseBranch_cases <;>
      rw [hok, hs]
    · have hall := h.opened
      rw [hopened, List.forall_mem_cons] at hall
      have hnew : (top.switch s.next).Whole :=
        ⟨hall.1.switch hkind s.next, hall.1.body, hall.1.others⟩
      refine ⟨⟨h.root, List.forall_mem_cons.mpr ⟨hnew, hall.2⟩⟩, ?_⟩
      simp [Session.calls, Session.skip, hopened, callsOfScopes, OpenScope.calls,
        hall.1.untouched hin, hall.1.elseAt_eq_none.2 hin, callsOf, treeCalls]
    · exact ⟨hskip, by simp [treeCalls, Session.calls, Session.skip]⟩
  | close =>
    obtain ⟨top, rest, hopened, hok, hs⟩ | ⟨_, hok, hs⟩ := s.close_cases <;> rw [hok, hs]
    · have hall := h.opened
      rw [hopened, List.forall_mem_cons] at hall
      have hrest : Session.Whole { s.skip with
          opened := rest
          declarations := s.declarations.exit } := ⟨h.root, hall.2⟩
      refine ⟨hrest.push (hall.1.toNode s.next), ?_⟩
      rw [hrest.push_calls, hall.1.toNode_calls]
      simp [Session.calls, Session.skip, hopened, callsOfScopes, treeCalls]
    · exact ⟨hskip, by simp [treeCalls, Session.calls, Session.skip]⟩

theorem Whole.run {s : Session} (h : s.Whole) (calls : List SessionCall) : (s.run calls).Whole := by
  induction calls generalizing s with
  | nil => exact h
  | cons c rest ih => exact ih (h.after c).1

theorem Whole.run_calls {s : Session} (h : s.Whole) (calls : List SessionCall) :
    (s.run calls).calls = s.calls ++ treeCalls s.next (s.trace calls) := by
  induction calls generalizing s with
  | nil => simp [Session.run, Session.trace, treeCalls]
  | cons c rest ih =>
    obtain ⟨hwhole, hcalls⟩ := h.after c
    rw [Session.run, ih hwhole, hcalls, after_next, Session.trace, List.append_assoc,
      ← treeCalls_cons]

theorem fold_unclosed (header : Header) (openAt : Nat) (elseAt : Option Nat) (body : List Node)
    (elseBody : Option (List Node)) (scopes : List OpenScope) :
    ∃ e, (fold (.scope header openAt elseAt none body elseBody) scopes).flatten = .error e := by
  induction scopes generalizing header openAt elseAt body elseBody with
  | nil =>
    refine ⟨.unbalancedScope openAt (.unclosed header.kind openAt), ?_⟩
    rw [fold, Node.flatten]
  | cons o rest ih => exact ih _ _ _ _ _

theorem flattenNodes_error {xs : List Node} {n : Node} (h : ∃ e, n.flatten = .error e)
    (steps : List Step) : flattenNodes (xs ++ [n]) ≠ .ok steps := by
  induction xs generalizing steps with
  | nil =>
    obtain ⟨e, he⟩ := h
    simp [flattenNodes, he, bind, Except.bind]
  | cons x xs ih =>
    intro hok
    obtain ⟨first, _, hok⟩ := bind_eq_ok.1 hok
    obtain ⟨others, hothers, _⟩ := bind_eq_ok.1 hok
    exact ih others hothers

/-- A session that flattens has no open scope left, and its tree is its root. -/
theorem opened_of_flatten {s : Session} {steps : List Step}
    (h : flatten s.finish.nodes = .ok steps) : s.opened = [] := by
  cases hs : s.opened with
  | nil => rfl
  | cons top rest =>
    obtain ⟨flat, hflat, _⟩ := bind_eq_ok.1 h
    simp only [finish, hs] at hflat
    exact absurd hflat (flattenNodes_error (fold_unclosed _ _ _ _ _ _) flat)

/-- What a run leaves for emission: the flat form of a whole tree, which was built by the accepted
calls. -/
theorem run_flatten {calls : List SessionCall} {steps : List Step}
    (h : flatten (Session.empty.run calls).finish.nodes = .ok steps) :
    ∃ nodes, WholeNodes nodes ∧ steps = stepsOf nodes ∧
      callsOf nodes = treeCalls 0 (Session.empty.trace calls) := by
  have hwhole := Whole.empty.run calls
  have hopened := opened_of_flatten h
  have hnodes : (Session.empty.run calls).finish.nodes = (Session.empty.run calls).root := by
    simp only [finish, hopened]
  have hcalls := Whole.empty.run_calls calls
  rw [Session.calls, hopened] at hcalls
  rw [hnodes, flatten_of_closed _ hwhole.root.closed] at h
  refine ⟨_, hwhole.root, (Except.ok.inj h).symm, ?_⟩
  simpa [callsOfScopes, Session.calls, Session.empty, callsOf] using hcalls

theorem call_of_trace {s : Session} {calls : List SessionCall} {i : Nat} {c : SessionCall}
    {ok : Bool} (h : (s.trace calls)[i]? = some (c, ok)) : calls[i]? = some c := by
  induction calls generalizing s i with
  | nil => cases h
  | cons first rest ih =>
    cases i with
    | zero =>
      cases h
      rfl
    | succ i => exact ih h

theorem call_of_treeCalls {calls : List SessionCall} {i : Nat} {c : SessionCall}
    (h : (i, c) ∈ treeCalls 0 (Session.empty.trace calls)) : calls[i]? = some c := by
  obtain ⟨j, rfl, hget⟩ := mem_treeCalls h
  rw [Nat.zero_add]
  exact call_of_trace hget

theorem call_of_step {calls : List SessionCall} {steps : List Step}
    (h : flatten (Session.empty.run calls).finish.nodes = .ok steps) {step : Step}
    (hstep : step ∈ steps) : ∃ c, step.MadeBy c ∧ calls[step.index]? = some c := by
  obtain ⟨nodes, _, rfl, hcalls⟩ := run_flatten h
  obtain ⟨c, hmade, hmem⟩ := made_of_mem nodes hstep
  exact ⟨c, hmade, call_of_treeCalls (hcalls ▸ hmem)⟩

theorem mem_callsOfScopes {scopes : List OpenScope} {o : OpenScope} (h : o ∈ scopes) :
    (o.openAt, .openScope o.header) ∈ callsOfScopes scopes := by
  induction h with
  | head => exact List.mem_append_right _ List.mem_cons_self
  | tail _ _ ih => exact List.mem_append_left _ ih

/-- A scope that is open was opened by the call with its index. -/
theorem call_of_opened {calls : List SessionCall} {o : OpenScope}
    (h : o ∈ (Session.empty.run calls).opened) : calls[o.openAt]? = some (.openScope o.header) := by
  have hcalls := Whole.empty.run_calls calls
  refine call_of_treeCalls ?_
  have hmem : (o.openAt, .openScope o.header) ∈ (Session.empty.run calls).calls :=
    List.mem_append_right _ (mem_callsOfScopes h)
  rw [hcalls] at hmem
  exact hmem

end Session
end BlockTemplate
