import BlockTemplate.Proofs.Session.Coherence

/-! Scopes that are never closed. The outermost one is blamed, whatever is inside or before it, and
a tree without any passes the balance check. -/
namespace BlockTemplate

/-- The number of scopes that a sequence opens and does not close. -/
def depthAfter : List Step → Int
  | [] => 0
  | step :: rest => step.delta + depthAfter rest

/-- The balance check keeps the depth of every prefix at zero or above, and brings it to zero. -/
theorem checkBalance_depth {opened : List Nat} {steps : List Step}
    (h : checkBalance opened steps = .ok ()) :
    opened.length + depthAfter steps = 0 ∧
      ∀ n, 0 ≤ opened.length + depthAfter (steps.take n) := by
  induction steps generalizing opened with
  | nil =>
    have hnone : opened = [] := by
      rw [checkBalance] at h
      split at h
      · cases h
      · next hlast => exact List.getLast?_eq_none_iff.1 hlast
    simp [hnone, depthAfter]
  | cons step rest ih =>
    -- Each step moves the depth and the list of open scopes by the same amount.
    obtain ⟨after, hafter, hlength⟩ : ∃ after, checkBalance after rest = .ok () ∧
        (after.length : Int) = opened.length + step.delta := by
      cases step with
      | action i call => exact ⟨opened, h, by rw [Step.delta]; omega⟩
      | opened i header => exact ⟨i :: opened, h, by rw [Step.delta, List.length_cons]; omega⟩
      | switched i kind => exact ⟨opened, h, by rw [Step.delta]; omega⟩
      | closed i kind =>
        cases opened with
        | nil => cases h
        | cons j outer => exact ⟨outer, h, by rw [Step.delta, List.length_cons]; omega⟩
    obtain ⟨htotal, hprefix⟩ := ih hafter
    refine ⟨?_, fun n => ?_⟩
    · rw [depthAfter]
      omega
    · cases n with
      | zero => simp [depthAfter]
      | succ n =>
        have hn := hprefix n
        rw [List.take_succ_cons, depthAfter]
        omega

namespace OpenScope

/-- What an open scope is blamed for. -/
def unclosed (o : OpenScope) : CompileError :=
  .unbalancedScope o.openAt (.unclosed o.header.kind o.openAt)

theorem unclosed_push (o : OpenScope) (n : Node) : (o.push n).unclosed = o.unclosed := by
  unfold push
  split <;> rfl

theorem flatten_toNode (o : OpenScope) : (o.toNode none).flatten = .error o.unclosed := by
  rw [toNode, Node.flatten]
  rfl

end OpenScope

namespace Session

/-- However deep the open scopes are nested, the flat form fails at the one around all others. -/
theorem flatten_fold (o : OpenScope) (scopes : List OpenScope) :
    (fold (o.toNode none) scopes).flatten =
      .error ((o :: scopes).getLast (List.cons_ne_nil _ _)).unclosed := by
  induction scopes generalizing o with
  | nil => exact o.flatten_toNode
  | cons p rest ih =>
    rw [fold, ih, List.getLast_cons_cons]
    cases rest with
    | nil => simp only [List.getLast_singleton, OpenScope.unclosed_push]
    | cons q rest => rw [List.getLast_cons_cons, List.getLast_cons_cons]

theorem flattenNodes_unclosed {nodes : List Node} (h : ClosedNodes nodes) {n : Node}
    {e : CompileError} (hn : n.flatten = .error e) :
    flattenNodes (nodes ++ [n]) = .error e := by
  induction nodes with
  | nil => exact bind_eq_error.2 (.inl hn)
  | cons first rest ih =>
    refine bind_eq_error.2 (.inr ⟨_, first.flatten_of_closed h.1, ?_⟩)
    exact bind_eq_error.2 (.inl (ih h.2))

theorem flatten_finish_opened {s : Session} (hroot : ClosedNodes s.root) {top : OpenScope}
    {rest : List OpenScope} (hs : s.opened = top :: rest) :
    flatten s.finish.nodes =
      .error ((top :: rest).getLast (List.cons_ne_nil _ _)).unclosed := by
  refine bind_eq_error.2 (.inl ?_)
  simp only [finish, hs]
  exact flattenNodes_unclosed hroot (flatten_fold top rest)

theorem Sound.flatten_finish_outermost {s : Session} (h : s.Sound) {o : OpenScope}
    (ho : s.opened.getLast? = some o) : flatten s.finish.nodes = .error o.unclosed := by
  cases hs : s.opened with
  | nil => simp [hs] at ho
  | cons top rest =>
    rw [hs, List.getLast?_eq_some_getLast (List.cons_ne_nil _ _)] at ho
    rw [flatten_finish_opened h.root hs, Option.some.inj ho]

theorem Sound.flatten_finish {s : Session} (h : s.Sound) (hs : s.opened = []) :
    flatten s.finish.nodes = .ok s.shown := by
  simp only [finish, hs]
  rw [flatten_of_closed _ h.root, Session.shown, hs, shownScopes, List.append_nil]

/-- Scopes that are further out were opened before. -/
theorem outermost_le {scopes : List OpenScope} (h : (indicesOfScopes scopes).Pairwise (· < ·))
    {o p : OpenScope} (ho : scopes.getLast? = some o) (hp : p ∈ scopes) :
    o.openAt ≤ p.openAt := by
  induction scopes with
  | nil => cases hp
  | cons first rest ih =>
    rw [indicesOfScopes, List.pairwise_append] at h
    cases rest with
    | nil =>
      obtain rfl := List.mem_singleton.1 hp
      cases ho
      exact Nat.le_refl _
    | cons second rest =>
      rw [List.getLast?_cons_cons] at ho
      obtain rfl | hp := List.mem_cons.1 hp
      · have hmem := indicesOfScopes_sublist (List.mem_of_getLast? ho)
        exact Nat.le_of_lt (h.2.2 _ (hmem.mem List.mem_cons_self) _ List.mem_cons_self)
      · exact ih h.1 ho hp

theorem outermost_le_of_run {calls : List SessionCall} {o p : OpenScope}
    (ho : (Session.empty.run calls).opened.getLast? = some o)
    (hp : p ∈ (Session.empty.run calls).opened) : o.openAt ≤ p.openAt :=
  outermost_le ((run_rising calls).1.sublist (List.sublist_append_right _ _)) ho hp

/-- The flat form of a session fails exactly if a scope is open at its end, and then at the call
that opened the outermost one, the first of those that are open. The check after flattening has
nothing to refuse: every tree of closed scopes gives a balanced sequence. -/
theorem flatten_finish_unclosed (calls : List SessionCall) :
    ((∃ e, flatten (Session.empty.run calls).finish.nodes = .error e) ↔
      (Session.empty.run calls).opened ≠ []) ∧
    (∀ o, (Session.empty.run calls).opened.getLast? = some o →
      flatten (Session.empty.run calls).finish.nodes =
        .error (.unbalancedScope o.openAt (.unclosed o.header.kind o.openAt)) ∧
      ∀ p ∈ (Session.empty.run calls).opened, o.openAt ≤ p.openAt) ∧
    ∀ nodes, ClosedNodes nodes → ∃ steps, flattenNodes nodes = .ok steps ∧
      checkBalance [] steps = .ok () ∧ (∀ n, 0 ≤ depthAfter (steps.take n)) ∧
      depthAfter steps = 0 := by
  have hsound := Sound.empty.run calls
  refine ⟨⟨?_, fun hne => ?_⟩, fun o ho => ⟨hsound.flatten_finish_outermost ho, fun p =>
    outermost_le_of_run ho⟩, fun nodes hnodes => ?_⟩
  · rintro ⟨e, he⟩ hnone
    rw [hsound.flatten_finish hnone] at he
    cases he
  · exact ⟨_, hsound.flatten_finish_outermost (List.getLast?_eq_some_getLast hne)⟩
  · have hbalance := checkBalance_stepsOf nodes hnodes [] []
    rw [List.append_nil] at hbalance
    have hok : checkBalance [] (stepsOf nodes) = .ok () := hbalance
    obtain ⟨htotal, hprefix⟩ := checkBalance_depth hok
    refine ⟨_, flattenNodes_of_closed nodes hnodes, hok, fun n => ?_, ?_⟩
    · simpa using hprefix n
    · simpa using htotal

/-- With both scopes open the outer one is blamed; closed, they give a balanced sequence. -/
theorem flatten_finish_unclosed_nestedCalls :
    ((Session.empty.run (nestedCalls.take 9)).opened.map (·.openAt) = [3, 1] ∧
      flatten (Session.empty.run (nestedCalls.take 9)).finish.nodes =
        .error (.unbalancedScope 1 (.unclosed .ifElse 1))) ∧
    ClosedNodes (Session.empty.run nestedCalls).root ∧
      ∃ steps, flattenNodes (Session.empty.run nestedCalls).root = .ok steps ∧
        checkBalance [] steps = .ok () ∧ depthAfter steps = 0 := by
  obtain ⟨_, hopened, hclosed⟩ := flatten_finish_unclosed (nestedCalls.take 9)
  have hroot : ClosedNodes (Session.empty.run nestedCalls).root :=
    ⟨⟨rfl, ⟨⟨rfl, ⟨trivial, trivial⟩, ⟨trivial, trivial⟩⟩, trivial⟩, trivial⟩, trivial⟩
  obtain ⟨steps, hsteps, hbalance, _, htotal⟩ := hclosed _ hroot
  exact ⟨⟨rfl, (hopened _ rfl).1⟩, hroot, steps, hsteps, hbalance, htotal⟩

end Session
end BlockTemplate
