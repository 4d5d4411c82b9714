import BlockTemplate.Proofs.Emission.Line
import BlockTemplate.Proofs.Session.Unclosed

/-! Where headers may stand in the flat form of a tree. The check is made step by step with a depth
and a count; what it accepts is said here in terms of matching scopes. -/
namespace BlockTemplate

def Header.IsDefinition : Header → Prop
  | .function _ | .process _ => True
  | .ifThen _ | .ifElse _ | .loop _ => False

/-- An event, or the start of a definition. -/
def Step.IsHeader : Step → Prop
  | .action _ a => a.category = .event ∨ a.category = .entityEvent
  | .opened _ h => h.IsDefinition
  | .switched _ _ | .closed _ _ => False

/-- Every scope that is opened is closed, and no other. -/
structure Balanced (steps : List Step) : Prop where
  total : depthAfter steps = 0
  before : ∀ n, 0 ≤ depthAfter (steps.take n)

/-- The steps hold a whole definition. Its close is the one that follows a balanced inside. -/
def EndsDefinition (steps : List Step) : Prop :=
  ∃ outer openAt header inside closeAt kind rest,
    steps = outer ++ .opened openAt header :: (inside ++ .closed closeAt kind :: rest) ∧
      header.IsDefinition ∧ Balanced inside

/-- After these steps the next is out of place. -/
def Misplaced (before : List Step) (step : Step) : Prop :=
  (before ≠ [] ∧ step.IsHeader) ∨ EndsDefinition before

/-- Only the first step is a header, and a definition reaches from it to the last. -/
structure HeadersInPlace (steps : List Step) : Prop where
  first : ∀ step ∈ steps.tail, ¬ step.IsHeader
  last : ∀ openAt header rest, steps = .opened openAt header :: rest → header.IsDefinition →
    ∃ inside closeAt kind, rest = inside ++ [.closed closeAt kind] ∧ Balanced inside

theorem Header.isDefinition_iff (h : Header) :
    h.IsDefinition ↔ h.kind.definitionBlock?.isSome = true := by
  cases h <;> simp [IsDefinition, Header.kind, ScopeKind.definitionBlock?]

theorem Step.isHeader_iff (step : Step) : step.IsHeader ↔ step.headerBlock?.isSome = true := by
  cases step with
  | action i a => cases hc : a.category <;> simp [IsHeader, headerBlock?, hc, BlockCategory.isEvent]
  | opened i h => exact h.isDefinition_iff
  | switched i kind | closed i kind => simp [IsHeader, headerBlock?]

theorem depthAfter_append (xs ys : List Step) :
    depthAfter (xs ++ ys) = depthAfter xs + depthAfter ys := by
  induction xs with
  | nil => simp [depthAfter]
  | cons step xs ih => simp only [List.cons_append, depthAfter, ih, Int.add_assoc]

/-- An element of a joined list stands in its second part or in its first. -/
theorem append_eq_append_cons {α : Type} {xs ys us vs : List α} {a : α}
    (h : xs ++ ys = us ++ a :: vs) :
    (∃ more, us = xs ++ more ∧ ys = more ++ a :: vs) ∨ ∃ more, xs = us ++ a :: more := by
  obtain ⟨more, hus, hys⟩ | ⟨more, hxs, hmore⟩ := List.append_eq_append_iff.1 h
  · exact .inl ⟨more, hus, hys⟩
  · cases more with
    | nil => exact .inl ⟨[], by simpa using hxs.symm, hmore.symm⟩
    | cons b more =>
      obtain ⟨rfl, _⟩ := List.cons.inj hmore
      exact .inr ⟨more, hxs⟩

namespace Balanced
variable {steps xs ys : List Step}

theorem nonneg (h : Balanced (xs ++ ys)) : 0 ≤ depthAfter xs := by
  simpa using h.before xs.length

theorem step_nonneg {step : Step} (h : Balanced (xs ++ step :: ys)) :
    0 ≤ depthAfter xs + step.delta := by
  have hle := h.before (xs.length + 1)
  rw [List.take_length_add_append, depthAfter_append] at hle
  simpa [depthAfter] using hle

theorem of_nonneg (htotal : depthAfter steps = 0)
    (h : ∀ xs ys, steps = xs ++ ys → 0 ≤ depthAfter xs) : Balanced steps :=
  ⟨htotal, fun n => h _ _ (List.take_append_drop n steps).symm⟩

theorem append (hx : Balanced xs) (hy : Balanced ys) : Balanced (xs ++ ys) := by
  refine of_nonneg (by rw [depthAfter_append, hx.total, hy.total]; rfl) fun us vs heq => ?_
  obtain ⟨more, rfl, rfl⟩ | ⟨more, rfl, rfl⟩ := List.append_eq_append_iff.1 heq
  · rw [depthAfter_append, hx.total, Int.zero_add]
    exact hy.nonneg
  · exact hx.nonneg

theorem switched (i : Nat) (kind : ScopeKind) : Balanced [.switched i kind] := by
  refine ⟨rfl, fun n => ?_⟩
  cases n <;> simp [depthAfter, Step.delta]

/-- The step that brings the depth below that of the inside comes right after it. -/
theorem first_below {step last : Step} {after : List Step} (hx : Balanced xs)
    (heq : xs ++ [last] = ys ++ step :: after) (hbelow : depthAfter ys + step.delta < 0) :
    ys = xs ∧ step = last := by
  obtain ⟨more, rfl, hmore⟩ | ⟨more, rfl⟩ := append_eq_append_cons heq
  · obtain ⟨rfl, hlast⟩ | ⟨_, _, hnil⟩ := List.cons_eq_append_iff.1 hmore
    · exact ⟨List.append_nil xs, (List.cons.inj hlast).1⟩
    · simp at hnil
  · exact absurd hx.step_nonneg (Int.not_le.2 hbelow)

theorem depth_scope (h : Balanced xs) {openAt closeAt : Nat} {header : Header} {kind : ScopeKind} :
    depthAfter (.opened openAt header :: xs) + (Step.closed closeAt kind).delta = 0 := by
  rw [depthAfter, h.total, Step.delta, Step.delta]
  rfl

/-- A scope has one matching close only. -/
theorem unique {i j : Nat} {kind kind' : ScopeKind} {rest : List Step} (hx : Balanced xs)
    (hy : Balanced ys) (heq : xs ++ [.closed i kind] = ys ++ .closed j kind' :: rest) :
    rest = [] := by
  have hbelow : depthAfter ys + (Step.closed j kind').delta < 0 := by
    rw [hy.total, Step.delta]
    decide
  obtain ⟨rfl, hlast⟩ := hx.first_below heq hbelow
  simpa [hlast] using heq

end Balanced

section Trees

theorem balanced_stepsOf {nodes : List Node} (h : ClosedNodes nodes) :
    Balanced (stepsOf nodes) := by
  have hok : checkBalance [] (stepsOf nodes ++ []) = .ok () := checkBalance_stepsOf nodes h [] []
  rw [List.append_nil] at hok
  obtain ⟨htotal, hbefore⟩ := checkBalance_depth hok
  exact ⟨by simpa using htotal, fun n => by simpa using hbefore n⟩

/-- A closed node is an action, or a scope with a balanced inside and a close of its own kind. -/
theorem Node.steps_cases (n : Node) (h : n.Closed) :
    (∃ index a, n.steps = [.action index a]) ∨
    ∃ openAt header inside closeAt, Balanced inside ∧
      n.steps = .opened openAt header :: (inside ++ [.closed closeAt header.kind]) := by
  cases n with
  | action index a => exact .inl ⟨index, a, rfl⟩
  | scope header openAt elseAt closeAt body elseBody? =>
    cases elseBody? with
    | none =>
      obtain ⟨hclose, hbody⟩ := h
      obtain ⟨closeAt, rfl⟩ := Option.isSome_iff_exists.mp hclose
      exact .inr ⟨openAt, header, stepsOf body, closeAt, balanced_stepsOf hbody, rfl⟩
    | some elseBody =>
      obtain ⟨hclose, hbody, helse⟩ := h
      obtain ⟨closeAt, rfl⟩ := Option.isSome_iff_exists.mp hclose
      let mark : Step := .switched (elseAt.getD closeAt) header.kind
      refine .inr ⟨openAt, header, stepsOf body ++ [mark] ++ stepsOf elseBody, closeAt, ?_, ?_⟩
      · exact ((balanced_stepsOf hbody).append (.switched _ _)).append (balanced_stepsOf helse)
      · cases elseAt <;> simp [Node.steps, mark]

theorem Node.depthAfter_steps (n : Node) (h : n.Closed) : depthAfter n.steps = 0 := by
  have hone : ClosedNodes [n] := ⟨h, trivial⟩
  have htotal := (balanced_stepsOf hone).total
  rwa [stepsOf_singleton] at htotal

/-- Where a step that begins no block brings the depth of a node to zero, the node is a scope and
ends with this step. -/
theorem Node.ended_scope (n : Node) (h : n.Closed) {before after : List Step} {step : Step}
    (hsteps : n.steps = before ++ step :: after) (hdepth : depthAfter before + step.delta = 0)
    (hstep : step.startsBlock = false) :
    ∃ openAt header inside closeAt, before = .opened openAt header :: inside ∧
      step = .closed closeAt header.kind ∧ Balanced inside := by
  obtain ⟨index, a, ha⟩ | ⟨openAt, header, inside, closeAt, hinside, hscope⟩ := n.steps_cases h
  · obtain ⟨_, hfirst⟩ | ⟨_, _, hnil⟩ := List.cons_eq_append_iff.1 (ha.symm.trans hsteps)
    · obtain ⟨rfl, _⟩ := List.cons.inj hfirst
      cases hstep
    · simp at hnil
  · obtain ⟨_, hfirst⟩ | ⟨more, rfl, hmore⟩ :=
      List.cons_eq_append_iff.1 (hscope.symm.trans hsteps)
    · obtain ⟨rfl, _⟩ := List.cons.inj hfirst
      cases hstep
    · rw [depthAfter, Step.delta] at hdepth
      obtain ⟨rfl, rfl⟩ := hinside.first_below hmore (by omega)
      exact ⟨openAt, header, more, closeAt, rfl, rfl, hinside⟩

theorem ended_scope {nodes : List Node} (hclosed : ClosedNodes nodes) {before after : List Step}
    {step : Step} (h : stepsOf nodes = before ++ step :: after)
    (hdepth : depthAfter before + step.delta = 0) (hstep : step.startsBlock = false) :
    ∃ outer openAt header inside closeAt, before = outer ++ .opened openAt header :: inside ∧
      step = .closed closeAt header.kind ∧ Balanced inside := by
  induction nodes generalizing before with
  | nil => simp [stepsOf] at h
  | cons n rest ih =>
    obtain ⟨hn, hrest⟩ := hclosed
    obtain ⟨later, rfl, hlater⟩ | ⟨part, hpart⟩ := append_eq_append_cons h
    · rw [depthAfter_append, n.depthAfter_steps hn, Int.zero_add] at hdepth
      obtain ⟨outer, openAt, header, inside, closeAt, rfl, hkind, hinside⟩ := ih hrest hlater hdepth
      exact ⟨n.steps ++ outer, openAt, header, inside, closeAt, by simp, hkind, hinside⟩
    · obtain ⟨openAt, header, inside, closeAt, rfl, hkind, hinside⟩ :=
        n.ended_scope hn hpart hdepth hstep
      exact ⟨[], openAt, header, inside, closeAt, rfl, hkind, hinside⟩

/-- In the flat form of a closed tree the matching close of a scope is of its kind. -/
theorem kind_of_scope {nodes : List Node} (hclosed : ClosedNodes nodes) {openAt closeAt : Nat}
    {header : Header} {inside rest : List Step} {kind : ScopeKind} (hinside : Balanced inside)
    (h : stepsOf nodes = .opened openAt header :: (inside ++ .closed closeAt kind :: rest)) :
    kind = header.kind := by
  have hsplit : stepsOf nodes = (.opened openAt header :: inside) ++ .closed closeAt kind :: rest :=
    h
  obtain ⟨outer, _, header', inside', _, hbefore, hstep, hinside'⟩ :=
    ended_scope hclosed hsplit hinside.depth_scope rfl
  cases outer with
  | nil =>
    cases hbefore
    exact (Step.closed.inj hstep).2
  | cons first outer =>
    -- An opening inside that is still open would leave the inside unbalanced.
    rw [List.cons_append] at hbefore
    obtain ⟨_, rfl⟩ := List.cons.inj hbefore
    have hle := hinside.nonneg
    have htotal := hinside.total
    rw [depthAfter_append, depthAfter, hinside'.total, Step.delta] at htotal
    omega

end Trees

namespace HeaderState

/-- The state after some steps. -/
abbrev after (steps : List Step) : HeaderState := steps.foldl next {}

theorem foldl_depth (s : HeaderState) (steps : List Step) :
    (steps.foldl next s).depth = s.depth + depthAfter steps := by
  induction steps generalizing s with
  | nil => simp [depthAfter]
  | cons step rest ih => rw [List.foldl_cons, ih, depthAfter, next, Int.add_assoc]

theorem after_depth (steps : List Step) : (after steps).depth = depthAfter steps := by
  rw [foldl_depth]
  exact Int.zero_add _

/-- What is accepted: nothing after the end of a definition, and a header before all blocks only. -/
theorem check_eq_ok_iff {s : HeaderState} {step : Step} : s.check step = .ok () ↔
    s.ended = none ∧ (step.IsHeader → s.depth = 0 ∧ s.topLevel = 0) := by
  rw [step.isHeader_iff]
  unfold check
  cases s.ended with
  | some block => simp [throw, throwThe, MonadExceptOf.throw, bind, Except.bind]
  | none =>
    cases step.headerBlock? with
    | none => simp [pure, Except.pure]
    | some block =>
      by_cases h : s.depth = 0 ∧ s.topLevel = 0
      · simp [h, pure, Except.pure]
      · have hlate : s.depth ≠ 0 ∨ s.topLevel ≠ 0 := Classical.not_and_iff_not_or_not.1 h
        simp [h, hlate, throw, throwThe, MonadExceptOf.throw]

/-- A refusal blames the step itself. -/
theorem check_error {s : HeaderState} {step : Step} {e : CompileError}
    (h : s.check step = .error e) : ∃ block fault, e = .misplacedHeader step.index block fault := by
  unfold check at h
  cases hended : s.ended with
  | some block =>
    rw [hended] at h
    cases h
    exact ⟨_, _, rfl⟩
  | none =>
    rw [hended] at h
    cases hblock : step.headerBlock? with
    | none =>
      rw [hblock] at h
      cases h
    | some block =>
      rw [hblock] at h
      dsimp only at h
      split at h
      · cases h
        exact ⟨_, _, rfl⟩
      · cases h

theorem foldl_topLevel {s : HeaderState} (h : s.topLevel ≠ 0) (steps : List Step) :
    (steps.foldl next s).topLevel ≠ 0 := by
  induction steps generalizing s with
  | nil => exact h
  | cons step rest ih => exact ih (next_topLevel step h)

/-- A definition has ended if the last step brought the depth to zero by ending one. -/
theorem after_ended {steps : List Step} {block : String} :
    (after steps).ended = some block ↔ ∃ before step, steps = before ++ [step] ∧
      depthAfter before + step.delta = 0 ∧ step.endedDefinition? = some block := by
  obtain rfl | ⟨before, step, rfl⟩ := List.eq_nil_or_concat steps
  · simp
  · simp only [List.concat_eq_append, List.foldl_append, List.foldl_cons, List.foldl_nil, next,
      after_depth]
    constructor
    · intro h
      split at h
      · next hdepth => exact ⟨before, step, rfl, hdepth, h⟩
      · cases h
    · rintro ⟨before', step', heq, hdepth, hended⟩
      obtain ⟨rfl, hlast⟩ := List.append_inj' heq rfl
      obtain rfl := List.singleton_inj.1 hlast
      rw [if_pos hdepth, hended]

end HeaderState

theorem checkHeaders_append_eq (s : HeaderState) (xs ys : List Step) :
    checkHeaders s (xs ++ ys) =
      checkHeaders s xs >>= fun _ => checkHeaders (xs.foldl HeaderState.next s) ys := by
  induction xs generalizing s with
  | nil => rfl
  | cons step xs ih => simp only [List.cons_append, checkHeaders, ih, bind_assoc, List.foldl_cons]

/-- A refused sequence is refused at one step, and accepted up to there. -/
theorem checkHeaders_refused {s : HeaderState} {steps : List Step} {e : CompileError}
    (h : checkHeaders s steps = .error e) :
    ∃ before step after, steps = before ++ step :: after ∧ checkHeaders s before = .ok () ∧
      (before.foldl HeaderState.next s).check step = .error e := by
  induction steps generalizing s with
  | nil => cases h
  | cons step rest ih =>
    obtain hcheck | ⟨_, hcheck, hrest⟩ := bind_eq_error.1 h
    · exact ⟨[], step, rest, rfl, rfl, hcheck⟩
    · obtain ⟨before, bad, after, rfl, hbefore, hbad⟩ := ih hrest
      exact ⟨step :: before, bad, after, rfl, bind_eq_ok.2 ⟨(), hcheck, hbefore⟩, hbad⟩

section Placement
variable {nodes : List Node} (hclosed : ClosedNodes nodes) {before rest : List Step}
  (hsteps : stepsOf nodes = before ++ rest)
include hsteps

/-- The first step begins a block at the outermost level. -/
theorem after_topLevel (hne : before ≠ []) : (HeaderState.after before).topLevel ≠ 0 := by
  cases before with
  | nil => exact absurd rfl hne
  | cons first more =>
    have hfirst : first.startsBlock = true := by
      cases nodes with
      | nil => simp [stepsOf] at hsteps
      | cons n others =>
        obtain ⟨head, tail, hhead, hstarts⟩ := n.steps_head
        rw [stepsOf, hhead, List.cons_append, List.cons_append] at hsteps
        rwa [(List.cons.inj hsteps).1] at hstarts
    refine HeaderState.foldl_topLevel ?_ more
    simp [HeaderState.next, hfirst]

include hclosed

/-- As long as nothing is refused, a definition has ended for the check exactly if it has. -/
theorem after_ended_iff (hok : checkHeaders {} before = .ok ()) :
    (HeaderState.after before).ended ≠ none ↔ EndsDefinition before := by
  constructor
  · intro hended
    obtain ⟨block, hblock⟩ := Option.ne_none_iff_exists'.1 hended
    obtain ⟨init, step, rfl, hdepth, hstep⟩ := HeaderState.after_ended.1 hblock
    have hstarts : step.startsBlock = false := by
      cases step <;> simp [Step.endedDefinition?] at hstep <;> rfl
    rw [List.append_assoc] at hsteps
    obtain ⟨outer, openAt, header, inside, closeAt, rfl, rfl, hinside⟩ :=
      ended_scope hclosed hsteps hdepth hstarts
    refine ⟨outer, openAt, header, inside, closeAt, header.kind, [], by simp, ?_, hinside⟩
    exact header.isDefinition_iff.2 (Option.isSome_of_eq_some hstep)
  · rintro ⟨outer, openAt, header, inside, closeAt, kind, more, rfl, hdefinition, hinside⟩
    obtain rfl : outer = [] := by
      refine Classical.byContradiction fun hne => ?_
      obtain ⟨_, _, hlater⟩ := bind_eq_ok.1 ((checkHeaders_append_eq _ _ _).symm.trans hok)
      have hcheck := HeaderState.check_eq_ok_iff.1 (checkHeaders_cons hlater).1
      rw [List.append_assoc] at hsteps
      exact after_topLevel hsteps hne (hcheck.2 hdefinition).2
    simp only [List.nil_append, List.cons_append, List.append_assoc] at hsteps hok ⊢
    obtain rfl := kind_of_scope hclosed hinside hsteps
    obtain ⟨block, hblock⟩ := Option.isSome_iff_exists.1 (header.isDefinition_iff.1 hdefinition)
    have hended : (HeaderState.after
        (.opened openAt header :: inside ++ [.closed closeAt header.kind])).ended = some block :=
      HeaderState.after_ended.2 ⟨_, _, rfl, hinside.depth_scope, hblock⟩
    cases more with
    | nil => exact Option.ne_none_iff_exists'.2 ⟨block, hended⟩
    | cons next more =>
      have hsplit :
          .opened openAt header :: (inside ++ .closed closeAt header.kind :: next :: more) =
          (.opened openAt header :: inside ++ [.closed closeAt header.kind]) ++ next :: more := by
        simp
      rw [hsplit, checkHeaders_append_eq] at hok
      obtain ⟨_, _, hlater⟩ := bind_eq_ok.1 hok
      have hcheck := HeaderState.check_eq_ok_iff.1 (checkHeaders_cons hlater).1
      exact absurd (hcheck.1.symm.trans hended) (by simp)

end Placement

section Sequences
variable {nodes : List Node} (hclosed : ClosedNodes nodes)
include hclosed

/-- The check of one step, if all before it have passed. -/
theorem check_iff_not_misplaced {before after : List Step} {step : Step}
    (hsteps : stepsOf nodes = before ++ step :: after) (hok : checkHeaders {} before = .ok ()) :
    (HeaderState.after before).check step = .ok () ↔ ¬ Misplaced before step := by
  have hended := after_ended_iff hclosed hsteps hok
  have hfirst : (HeaderState.after before).depth = 0 ∧ (HeaderState.after before).topLevel = 0 ↔
      before = [] := by
    refine ⟨fun h => Classical.byContradiction fun hne => after_topLevel hsteps hne h.2, ?_⟩
    rintro rfl
    exact ⟨rfl, rfl⟩
  rw [HeaderState.check_eq_ok_iff, hfirst, Misplaced, ← hended]
  grind

/-- The check of a sequence. -/
theorem checkHeaders_iff_not_misplaced : checkHeaders {} (stepsOf nodes) = .ok () ↔
    ∀ before step after, stepsOf nodes = before ++ step :: after → ¬ Misplaced before step := by
  constructor
  · intro h before step after hsteps
    rw [hsteps, checkHeaders_append_eq] at h
    obtain ⟨_, hbefore, hlater⟩ := bind_eq_ok.1 h
    exact (check_iff_not_misplaced hclosed hsteps hbefore).1 (checkHeaders_cons hlater).1
  · intro h
    cases hresult : checkHeaders {} (stepsOf nodes) with
    | ok _ => rfl
    | error e =>
      obtain ⟨before, step, after, hsteps, hbefore, hbad⟩ := checkHeaders_refused hresult
      have hgood := (check_iff_not_misplaced hclosed hsteps hbefore).2 (h before step after hsteps)
      rw [hgood] at hbad
      cases hbad

/-- A scope that opens the sequence is closed in it. -/
theorem scope_of_opened {openAt : Nat} {header : Header} {rest : List Step}
    (hsteps : stepsOf nodes = .opened openAt header :: rest) :
    ∃ inside closeAt kind others, rest = inside ++ .closed closeAt kind :: others ∧
      Balanced inside := by
  cases nodes with
  | nil => simp [stepsOf] at hsteps
  | cons n others =>
    rw [stepsOf] at hsteps
    obtain ⟨index, a, ha⟩ | ⟨_, _, inside, closeAt, hinside, hscope⟩ := n.steps_cases hclosed.1
    · rw [ha] at hsteps
      cases (List.cons.inj hsteps).1
    · rw [hscope, List.cons_append, List.append_assoc] at hsteps
      exact ⟨inside, closeAt, _, stepsOf others, (List.cons.inj hsteps).2.symm, hinside⟩

/-- Headers are in place exactly if no step is misplaced. A definition that opens the sequence is
closed in it, so what follows its close would be. -/
theorem headersInPlace_iff : HeadersInPlace (stepsOf nodes) ↔
    ∀ before step after, stepsOf nodes = before ++ step :: after → ¬ Misplaced before step := by
  constructor
  · rintro ⟨hfirst, hlast⟩ before step after hsteps hbad
    have htail : ∀ xs x ys, stepsOf nodes = xs ++ x :: ys → xs ≠ [] → ¬ x.IsHeader := by
      intro xs x ys hxs hne
      refine hfirst x ?_
      rw [hxs, List.tail_append_of_ne_nil hne]
      simp
    obtain ⟨hne, hheader⟩ | ⟨outer, openAt, header, inside, closeAt, kind, rest, rfl, hdef, hinside⟩ :=
      hbad
    · exact htail _ _ _ hsteps hne hheader
    · simp only [List.cons_append, List.append_assoc] at hsteps
      obtain rfl : outer = [] := Classical.byContradiction fun hne => htail _ _ _ hsteps hne hdef
      obtain ⟨inside', closeAt', kind', hrest, hinside'⟩ := hlast _ _ _ hsteps hdef
      have hnil := hinside'.unique hinside hrest.symm
      simp at hnil
  · intro h
    refine ⟨fun step hstep hheader => ?_, fun openAt header rest hsteps hdef => ?_⟩
    · cases hsteps : stepsOf nodes with
      | nil => simp [hsteps] at hstep
      | cons first tail =>
        rw [hsteps] at hstep
        obtain ⟨xs, ys, htail⟩ := List.append_of_mem hstep
        refine h (first :: xs) step ys ?_ (.inl ⟨by simp, hheader⟩)
        rw [hsteps, List.cons_append]
        exact congrArg (first :: ·) htail
    · obtain ⟨inside, closeAt, kind, others, rfl, hinside⟩ := scope_of_opened hclosed hsteps
      cases others with
      | nil => exact ⟨inside, closeAt, kind, rfl, hinside⟩
      | cons next more =>
        refine absurd (.inr ⟨[], openAt, header, inside, closeAt, kind, [], rfl, hdef, hinside⟩)
          (h (.opened openAt header :: (inside ++ [.closed closeAt kind])) next more ?_)
        rw [hsteps]
        simp

end Sequences

/-- The ids of the blocks that have to come first. -/
def headerBlocks : List String := ["event", "entity_event", "func", "process"]

section Records
variable {table : SchemaTable} {limits : Limits} {step : Step} {own : List Record}

/-- A header is emitted as one record. -/
theorem Step.records_of_header (h : step.records table limits = .ok own) (hstep : step.IsHeader) :
    ∃ b, own = [.block b] := by
  cases step with
  | action index a =>
    obtain ⟨r, hr, h⟩ := bind_eq_ok.1 h
    cases h
    obtain ⟨b, rfl, _⟩ := Action.record_block hr
    exact ⟨b, rfl⟩
  | opened index header =>
    cases header with
    | function d | process d =>
      obtain ⟨b, rfl, _⟩ := Definition.records_block h
      exact ⟨b, rfl⟩
    | ifThen c | ifElse c | loop l => exact hstep.elim
  | switched | closed => exact hstep.elim

/-- No other step emits a block with the id of a header. -/
theorem Step.block_of_no_header (h : step.records table limits = .ok own) (hstep : ¬ step.IsHeader)
    {b : CodeBlock} (hb : .block b ∈ own) : b.block ∉ headerBlocks := by
  cases step with
  | action index a =>
    obtain ⟨r, hr, h⟩ := bind_eq_ok.1 h
    cases h
    obtain ⟨b', rfl, hblock⟩ := Action.record_block hr
    cases List.mem_singleton.1 hb
    rw [hblock]
    cases hcategory : a.category <;> simp [Step.IsHeader, hcategory] at hstep <;> decide
  | opened index header =>
    cases header with
    | function d | process d => exact absurd trivial hstep
    | ifThen c | ifElse c =>
      obtain ⟨b', rfl, hblock⟩ := Condition.records_block h
      obtain rfl : b = b' := by simpa using hb
      rw [hblock]
      cases c.category <;> decide
    | loop l =>
      obtain ⟨b', rfl, hblock⟩ := Loop.records_block h
      obtain rfl : b = b' := by simpa using hb
      rw [hblock]
      decide
  | switched index kind =>
    cases h
    cases kind <;> simp [switching, ScopeKind.bracket?] at hb <;> (rw [hb]; decide)
  | closed index kind =>
    cases h
    cases kind <;> simp [closing, ScopeKind.bracket?] at hb

/-- Of steps whose headers are in place only the first can emit a header, as its first record. -/
theorem recordsOf_header {steps : List Step} (hplace : HeadersInPlace steps) {records : List Record}
    (h : recordsOf table limits steps = .ok records) {k : Nat} {b : CodeBlock}
    (hk : records[k]? = some (.block b)) (hb : b.block ∈ headerBlocks) : k = 0 := by
  cases steps with
  | nil =>
    cases h
    simp at hk
  | cons first rest =>
    obtain ⟨own, others, hown, hothers, rfl⟩ := recordsOf_cons h
    rw [List.getElem?_append] at hk
    split at hk
    · next hlt =>
      by_cases hfirst : first.IsHeader
      · obtain ⟨b', rfl⟩ := Step.records_of_header hown hfirst
        simpa using hlt
      · exact absurd hb (Step.block_of_no_header hown hfirst (List.mem_of_getElem? hk))
    · obtain ⟨step, hstep, own', hown', hmem⟩ :=
        mem_recordsOf rest hothers (List.mem_of_getElem? hk)
      exact absurd hb (Step.block_of_no_header hown' (hplace.first step hstep) hmem)

end Records

/-- The first step that is refused is the first that is misplaced. -/
theorem misplaced_of_refused {nodes : List Node} (hclosed : ClosedNodes nodes) {e : CompileError}
    (h : checkHeaders {} (stepsOf nodes) = .error e) :
    ∃ before step after block fault, stepsOf nodes = before ++ step :: after ∧
      Misplaced before step ∧
      (∀ earlier other later, stepsOf nodes = earlier ++ other :: later →
        earlier.length < before.length → ¬ Misplaced earlier other) ∧
      e = .misplacedHeader step.index block fault := by
  obtain ⟨before, step, after, hsteps, hok, hbad⟩ := checkHeaders_refused h
  obtain ⟨block, fault, rfl⟩ := HeaderState.check_error hbad
  refine ⟨before, step, after, block, fault, hsteps, ?_, ?_, rfl⟩
  · refine Classical.byContradiction fun hgood => ?_
    have hcheck := (check_iff_not_misplaced hclosed hsteps hok).2 hgood
    rw [hcheck] at hbad
    cases hbad
  · intro earlier other later hearlier hlt
    obtain ⟨more, rfl, _⟩ | ⟨more, rfl⟩ := append_eq_append_cons (hsteps.symm.trans hearlier)
    · rw [List.length_append] at hlt
      omega
    · rw [checkHeaders_append_eq] at hok
      obtain ⟨_, hfirst, hlater⟩ := bind_eq_ok.1 hok
      exact (check_iff_not_misplaced hclosed hearlier hfirst).1 (checkHeaders_cons hlater).1

/-- In the flat form of a tree, headers pass the check exactly if only the first step is one and a
definition reaches from it to the last step. Otherwise the first misplaced step is blamed. So what is
emitted has a header block as its first record only. -/
theorem checkHeaders_eq_ok_iff {nodes : List Node} {steps : List Step}
    (h : flatten nodes = .ok steps) :
    (checkHeaders {} steps = .ok () ↔ HeadersInPlace steps) ∧
    (¬ HeadersInPlace steps → ∃ before step after block fault,
      steps = before ++ step :: after ∧ Misplaced before step ∧
      (∀ earlier other later, steps = earlier ++ other :: later →
        earlier.length < before.length → ¬ Misplaced earlier other) ∧
      checkHeaders {} steps = .error (.misplacedHeader step.index block fault)) ∧
    ∀ table limits records, emit table limits steps = .ok records →
      ∀ k b, records[k]? = some (.block b) → b.block ∈ headerBlocks → k = 0 := by
  obtain ⟨hclosed, rfl⟩ := flatten_eq_ok h
  have hiff := (checkHeaders_iff_not_misplaced hclosed).trans (headersInPlace_iff hclosed).symm
  refine ⟨hiff, fun hnot => ?_, fun table limits records hemit k b hk hb => ?_⟩
  · cases hresult : checkHeaders {} (stepsOf nodes) with
    | ok _ => exact absurd (hiff.1 hresult) hnot
    | error e =>
      obtain ⟨before, step, after, block, fault, hsteps, hbad, hfirst, rfl⟩ :=
        misplaced_of_refused hclosed hresult
      exact ⟨before, step, after, block, fault, hsteps, hbad, hfirst, rfl⟩
  · obtain ⟨_, hheaders, hrecords⟩ := bind_eq_ok.1 hemit
    exact recordsOf_header (hiff.1 hheaders) hrecords hk hb

/-- A process with an if-else scope in it, and an action after its end. -/
def actionAfterProcess : List Node :=
  [.scope (.process { name := "tick" }) 0 none (some 4)
      [.scope (.ifElse { category := .player, action := "IsSneaking" }) 1 none (some 3)
        [.action 2 { category := .playerAction, action := "Jump" }] (some [])] none,
    .action 5 { category := .playerAction, action := "Jump" }]

def processTable : SchemaTable :=
  SchemaTable.empty.putAll [{ block := "process", name := "dynamic" },
    { block := "if_player", name := "IsSneaking" }, { block := "player_action", name := "Jump" }]

/-- The action is blamed. Without it the process is emitted, as the first record. -/
theorem checkHeaders_eq_ok_iff_process :
    (∃ steps, flatten actionAfterProcess = .ok steps ∧ ¬ HeadersInPlace steps ∧
      ∃ before step after block fault, steps = before ++ step :: after ∧ step.index = 5 ∧
        Misplaced before step ∧
        checkHeaders {} steps = .error (.misplacedHeader step.index block fault)) ∧
    ∃ steps records, flatten (actionAfterProcess.take 1) = .ok steps ∧ HeadersInPlace steps ∧
      emit processTable {} steps = .ok records ∧
      records[0]? = some (.block { block := "process", data := some "tick" }) ∧
      ∀ k b, records[k]? = some (.block b) → b.block ∈ headerBlocks → k = 0 := by
  constructor
  · obtain ⟨steps, hflat⟩ : ∃ steps, flatten actionAfterProcess = .ok steps := ⟨_, rfl⟩
    obtain ⟨hiff, hrefused, _⟩ := checkHeaders_eq_ok_iff hflat
    have hheaders : checkHeaders {} steps =
        .error (.misplacedHeader 5 "process" .afterDefinition) := by
      cases hflat
      rfl
    have hnot : ¬ HeadersInPlace steps := fun hplace => by
      rw [hiff.2 hplace] at hheaders
      cases hheaders
    obtain ⟨before, step, after, block, fault, hsteps, hbad, _, herror⟩ := hrefused hnot
    have hindex : step.index = 5 := by
      rw [hheaders] at herror
      injection herror with herror
      injection herror with hindex
      exact hindex.symm
    exact ⟨steps, hflat, hnot, before, step, after, block, fault, hsteps, hindex, hbad, herror⟩
  · have hflat : ∃ steps records, flatten (actionAfterProcess.take 1) = .ok steps ∧
        emit processTable {} steps = .ok records ∧
        records[0]? = some (.block { block := "process", data := some "tick" }) :=
      ⟨_, _, rfl, rfl, rfl⟩
    obtain ⟨steps, records, hflat, hemit, hfirst⟩ := hflat
    obtain ⟨hiff, _, hrecords⟩ := checkHeaders_eq_ok_iff hflat
    obtain ⟨_, hheaders, _⟩ := bind_eq_ok.1 hemit
    exact ⟨steps, records, hflat, hiff.1 hheaders, hemit, hfirst, hrecords _ _ _ hemit⟩

end BlockTemplate
