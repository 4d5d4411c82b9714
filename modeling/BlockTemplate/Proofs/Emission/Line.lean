import BlockTemplate.Compile
import BlockTemplate.Proofs.Emission.Brackets
import BlockTemplate.Proofs.Emission.Steps
import BlockTemplate.Proofs.Session.CallTree

/-! The template of a session is a code line, and the tree of its blocks is the tree of the calls
that were accepted. -/
namespace BlockTemplate

section Shows
variable (table : SchemaTable) (limits : Limits)

/-- The block that is emitted for a call. -/
def BlockOf (index : Nat) : SessionCall → CodeBlock → Prop
  | .add a, b => a.record table limits index = .ok (.block b)
  | .openScope h, b => ∃ brackets, h.records table limits index = .ok (.block b :: brackets)
  | _, _ => False

/-- A body holds the blocks of these calls, nested as the calls are. An if-else scope has an else
part also if its else branch was never entered. -/
inductive Shows : List (Nat × SessionCall) → List BlockTree → Prop
  | empty : Shows [] []
  | add {i : Nat} {a : Action} {b : CodeBlock} {calls : List (Nat × SessionCall)}
      {rest : List BlockTree} (block : BlockOf table limits i (.add a) b)
      (tail : Shows calls rest) : Shows ((i, .add a) :: calls) (.block b :: rest)
  | ifThen {i j : Nat} {c : Condition} {b : CodeBlock} {inner calls : List (Nat × SessionCall)}
      {body rest : List BlockTree} (block : BlockOf table limits i (.openScope (.ifThen c)) b)
      (inside : Shows inner body) (tail : Shows calls rest) :
      Shows ((i, .openScope (.ifThen c)) :: (inner ++ (j, .close) :: calls))
        (.ifThen b body :: rest)
  | ifElse {i j k : Nat} {c : Condition} {b : CodeBlock}
      {inner second calls : List (Nat × SessionCall)} {body other rest : List BlockTree}
      (block : BlockOf table limits i (.openScope (.ifElse c)) b) (inside : Shows inner body)
      (otherwise : Shows second other) (tail : Shows calls rest) :
      Shows ((i, .openScope (.ifElse c)) ::
          (inner ++ (k, .elseBranch) :: (second ++ (j, .close) :: calls)))
        (.ifElse b body other :: rest)
  | ifElseUnentered {i j : Nat} {c : Condition} {b : CodeBlock}
      {inner calls : List (Nat × SessionCall)} {body rest : List BlockTree}
      (block : BlockOf table limits i (.openScope (.ifElse c)) b) (inside : Shows inner body)
      (tail : Shows calls rest) :
      Shows ((i, .openScope (.ifElse c)) :: (inner ++ (j, .close) :: calls))
        (.ifElse b body [] :: rest)
  | loop {i j : Nat} {l : Loop} {b : CodeBlock} {inner calls : List (Nat × SessionCall)}
      {body rest : List BlockTree} (block : BlockOf table limits i (.openScope (.loop l)) b)
      (inside : Shows inner body) (tail : Shows calls rest) :
      Shows ((i, .openScope (.loop l)) :: (inner ++ (j, .close) :: calls))
        (.loop b body :: rest)

/-- A line holds the blocks of these calls. A definition reaches from its first to its last. -/
inductive CodeLine.Shows : List (Nat × SessionCall) → CodeLine → Prop
  | plain {calls : List (Nat × SessionCall)} {body : List BlockTree}
      (inside : BlockTemplate.Shows table limits calls body) : Shows calls (.plain body)
  | event {i : Nat} {a : Action} {b : CodeBlock} {calls : List (Nat × SessionCall)}
      {body : List BlockTree} (block : BlockOf table limits i (.add a) b)
      (inside : BlockTemplate.Shows table limits calls body) :
      Shows ((i, .add a) :: calls) (.event b body)
  | definition {i j : Nat} {h : Header} {b : CodeBlock} {calls : List (Nat × SessionCall)}
      {body : List BlockTree} (block : BlockOf table limits i (.openScope h) b)
      (inside : BlockTemplate.Shows table limits calls body) :
      Shows ((i, .openScope h) :: (calls ++ [(j, .close)])) (.definition b body)

end Shows

section Roles
variable {b : CodeBlock}

theorem role_of_category {category : BlockCategory} (h : b.block = category.id) :
    b.role = if category.isEvent then .event else .plain := by
  cases category <;>
    simp [CodeBlock.role, CodeBlock.isBareElse, h, BlockCategory.id, BlockCategory.isEvent,
      elseBlock]

theorem role_of_condition {category : ConditionCategory} (h : b.block = category.id) :
    b.role = .condition := by
  cases category <;> simp [CodeBlock.role, h, ConditionCategory.id]

theorem role_of_repeat (h : b.block = repeatBlock) : b.role = .loop := by
  simp [CodeBlock.role, h, repeatBlock]

theorem role_of_definition (h : b.block = functionBlock ∨ b.block = processBlock) :
    b.role = .definition := by
  obtain h | h := h <;> simp [CodeBlock.role, h, functionBlock, processBlock]

end Roles

section Records
variable {table : SchemaTable} {limits : Limits} {index : Nat} {records : List Record}

theorem Action.record_block {a : Action} {r : Record} (h : a.record table limits index = .ok r) :
    ∃ b, r = .block b ∧ b.block = a.category.id := by
  obtain ⟨_, _, h⟩ := bind_eq_ok.1 h
  split at h
  · dsimp only at h
    split at h
    · cases h
    · obtain ⟨_, _, h⟩ := bind_eq_ok.1 h
      cases h
      exact ⟨_, rfl, rfl⟩
  · obtain ⟨items, _, h⟩ := bind_eq_ok.1 h
    cases h
    exact ⟨_, rfl, rfl⟩

theorem Condition.records_block {c : Condition} (h : c.records table limits index = .ok records) :
    ∃ b, records = [.block b, .bracket .opening .normal] ∧ b.block = c.category.id := by
  obtain ⟨_, _, h⟩ := bind_eq_ok.1 h
  obtain ⟨items, _, h⟩ := bind_eq_ok.1 h
  cases h
  exact ⟨_, rfl, rfl⟩

theorem Loop.records_block {l : Loop} (h : l.records table limits index = .ok records) :
    ∃ b, records = [.block b, .bracket .opening .repeating] ∧ b.block = repeatBlock := by
  obtain ⟨items, _, h⟩ := bind_eq_ok.1 h
  cases h
  exact ⟨_, rfl, rfl⟩

theorem Definition.records_block {block : String} {d : Definition}
    (h : d.records table limits index block = .ok records) :
    ∃ b, records = [.block b] ∧ b.block = block := by
  obtain ⟨_, _, h⟩ := bind_eq_ok.1 h
  obtain ⟨items, _, h⟩ := bind_eq_ok.1 h
  cases h
  exact ⟨_, rfl, rfl⟩

/-- The records of a scope: its header, those inside, and what its close adds. -/
theorem recordsOf_scope {openAt closeAt : Nat} {header : Header} {kind : ScopeKind}
    {inside : List Step}
    (h : recordsOf table limits (.opened openAt header :: inside ++ [.closed closeAt kind]) =
      .ok records) :
    ∃ first inner, header.records table limits openAt = .ok first ∧
      recordsOf table limits inside = .ok inner ∧ records = first ++ inner ++ closing kind := by
  obtain ⟨first, others, hfirst, hothers, rfl⟩ := recordsOf_cons h
  obtain ⟨inner, last, hinner, hlast, rfl⟩ := recordsOf_append hothers
  obtain ⟨close, rest, hclose, hrest, rfl⟩ := recordsOf_cons hlast
  cases hclose
  cases hrest
  exact ⟨first, inner, hfirst, hinner, by simp⟩

end Records

section Trees
variable {table : SchemaTable} {limits : Limits}

/-- A node whose records head those of any body after it, and whose calls head its calls. -/
def Node.ShowsAs (table : SchemaTable) (limits : Limits) (n : Node) (records : List Record) :
    Prop :=
  ∃ tree, (∀ rest after, Body rest after → Body (tree :: rest) (records ++ after)) ∧
    ∀ calls rest, Shows table limits calls rest → Shows table limits (n.calls ++ calls)
      (tree :: rest)

mutual

theorem Node.shows (n : Node) (hwhole : n.Whole)
    (hplain : ∀ step ∈ n.steps, step.headerBlock? = none) {records : List Record}
    (h : recordsOf table limits n.steps = .ok records) :
    n.ShowsAs table limits records := by
  match n with
  | .action index a =>
    obtain ⟨first, others, hfirst, hothers, rfl⟩ := recordsOf_cons h
    cases hothers
    obtain ⟨r, hr, hfirst⟩ := bind_eq_ok.1 hfirst
    cases hfirst
    obtain ⟨b, rfl, hb⟩ := Action.record_block hr
    have hevent : a.category.isEvent = false := by
      have hhead := hplain _ (List.mem_singleton.2 rfl)
      simpa [Step.headerBlock?] using hhead
    have hrole : b.role = .plain := by simp [role_of_category hb, hevent]
    exact ⟨.block b, fun _ _ hrest => .block hrole hrest, fun _ _ hrest => .add hr hrest⟩
  | .scope header openAt elseAt closeAt body none =>
    obtain ⟨hclose, hkind, rfl, hbody⟩ := hwhole
    obtain ⟨closeAt, rfl⟩ := Option.isSome_iff_exists.mp hclose
    obtain ⟨first, inner, hfirst, hinner, rfl⟩ := recordsOf_scope h
    obtain ⟨trees, htrees, hshows⟩ := nodes_show body hbody
      (fun step hstep => hplain step (by simp [Node.steps, hstep])) hinner
    have hheader := hplain (.opened openAt header) (by simp [Node.steps])
    cases header with
    | ifThen c =>
      obtain ⟨b, rfl, hb⟩ := Condition.records_block hfirst
      refine ⟨.ifThen b trees, fun rest after hrest => ?_, fun calls rest hrest => ?_⟩
      · simpa [closing, ScopeKind.bracket?, Header.kind] using
          Body.ifThen (role_of_condition hb) htrees hrest
      · simpa [Node.calls] using Shows.ifThen ⟨_, hfirst⟩ hshows hrest
    | loop l =>
      obtain ⟨b, rfl, hb⟩ := Loop.records_block hfirst
      refine ⟨.loop b trees, fun rest after hrest => ?_, fun calls rest hrest => ?_⟩
      · simpa [closing, ScopeKind.bracket?, Header.kind] using
          Body.loop (role_of_repeat hb) htrees hrest
      · simpa [Node.calls] using Shows.loop ⟨_, hfirst⟩ hshows hrest
    | ifElse c => exact absurd rfl hkind
    | function d | process d => cases hheader
  | .scope header openAt elseAt closeAt body (some elseBody) =>
    obtain ⟨hclose, hkind, hempty, hbody, helse⟩ := hwhole
    obtain ⟨closeAt, rfl⟩ := Option.isSome_iff_exists.mp hclose
    obtain ⟨c, rfl⟩ : ∃ c, header = .ifElse c := by
      cases header <;> simp [Header.kind] at hkind ⊢
    -- the else mark has the index of the else call, or of the close if there was none
    have hsteps : Node.steps
        (.scope (.ifElse c) openAt elseAt (some closeAt) body (some elseBody)) =
        .opened openAt (.ifElse c) ::
          (stepsOf body ++ .switched (elseAt.getD closeAt) .ifElse :: stepsOf elseBody) ++
            [.closed closeAt .ifElse] := by
      cases elseAt <;> simp [Node.steps, Header.kind]
    rw [hsteps] at h hplain
    obtain ⟨first, inside, hfirst, hinside, rfl⟩ := recordsOf_scope h
    obtain ⟨inner, others, hinner, hothers, rfl⟩ := recordsOf_append hinside
    obtain ⟨switch, second, hswitch, hsecond, rfl⟩ := recordsOf_cons hothers
    cases hswitch
    obtain ⟨trees, htrees, hshows⟩ := nodes_show body hbody
      (fun step hstep => hplain step (by simp [hstep])) hinner
    obtain ⟨others, hothers, hshowsOther⟩ := nodes_show elseBody helse
      (fun step hstep => hplain step (by simp [hstep])) hsecond
    obtain ⟨b, rfl, hb⟩ := Condition.records_block hfirst
    refine ⟨.ifElse b trees others, fun rest after hrest => ?_, fun calls rest hrest => ?_⟩
    · simpa [closing, switching, ScopeKind.bracket?] using
        Body.ifElse (role_of_condition hb) htrees hothers hrest
    · cases elseAt with
      | some k => simpa [Node.calls] using Shows.ifElse ⟨_, hfirst⟩ hshows hshowsOther hrest
      | none =>
        obtain rfl := hempty rfl
        cases hshowsOther
        simpa [Node.calls, callsOf] using Shows.ifElseUnentered ⟨_, hfirst⟩ hshows hrest

theorem nodes_show (nodes : List Node) (hwhole : WholeNodes nodes)
    (hplain : ∀ step ∈ stepsOf nodes, step.headerBlock? = none) {records : List Record}
    (h : recordsOf table limits (stepsOf nodes) = .ok records) :
    ∃ trees, Body trees records ∧ Shows table limits (callsOf nodes) trees := by
  match nodes with
  | [] =>
    cases h
    exact ⟨[], .empty, .empty⟩
  | n :: rest =>
    obtain ⟨first, others, hfirst, hothers, rfl⟩ := recordsOf_append h
    obtain ⟨tree, hbody, hshows⟩ := n.shows hwhole.1
      (fun step hstep => hplain step (List.mem_append_left _ hstep)) hfirst
    obtain ⟨trees, htrees, hrest⟩ := nodes_show rest hwhole.2
      (fun step hstep => hplain step (List.mem_append_right _ hstep)) hothers
    exact ⟨tree :: trees, hbody trees others htrees, hshows _ trees hrest⟩

end

end Trees

section Headers

theorem checkHeaders_cons {s : HeaderState} {step : Step} {rest : List Step}
    (h : checkHeaders s (step :: rest) = .ok ()) :
    s.check step = .ok () ∧ checkHeaders (s.next step) rest = .ok () := by
  obtain ⟨_, hcheck, hrest⟩ := bind_eq_ok.1 h
  exact ⟨hcheck, hrest⟩

theorem checkHeaders_append {s : HeaderState} {xs ys : List Step}
    (h : checkHeaders s (xs ++ ys) = .ok ()) :
    checkHeaders (xs.foldl HeaderState.next s) ys = .ok () := by
  induction xs generalizing s with
  | nil => exact h
  | cons step xs ih => exact ih (checkHeaders_cons h).2

/-- What passes the check: nothing after the end of a definition, no header but the first block. -/
theorem HeaderState.check_ok {s : HeaderState} {step : Step} (h : s.check step = .ok ()) :
    s.ended = none ∧ (s.topLevel ≠ 0 → step.headerBlock? = none) := by
  unfold HeaderState.check at h
  cases hended : s.ended with
  | some block =>
    rw [hended] at h
    cases h
  | none =>
    refine ⟨rfl, fun htop => ?_⟩
    cases hhead : step.headerBlock? with
    | none => rfl
    | some block =>
      simp [hended, hhead, htop] at h

theorem HeaderState.next_topLevel {s : HeaderState} (step : Step) (h : s.topLevel ≠ 0) :
    (s.next step).topLevel ≠ 0 := by
  simp only [HeaderState.next]
  split <;> omega

/-- Once a block stands at the outermost level no header may come. -/
theorem checkHeaders_later {s : HeaderState} {steps : List Step} (htop : s.topLevel ≠ 0)
    (h : checkHeaders s steps = .ok ()) : ∀ step ∈ steps, step.headerBlock? = none := by
  induction steps generalizing s with
  | nil => simp
  | cons step rest ih =>
    obtain ⟨hcheck, hrest⟩ := checkHeaders_cons h
    exact List.forall_mem_cons.2
      ⟨(HeaderState.check_ok hcheck).2 htop, ih (HeaderState.next_topLevel step htop) hrest⟩

mutual

theorem Node.foldl_depth (n : Node) (h : n.Closed) (s : HeaderState) :
    (n.steps.foldl HeaderState.next s).depth = s.depth := by
  match n with
  | .action index call => simp [Node.steps, HeaderState.next, Step.delta]
  | .scope header openAt elseAt closeAt body none =>
    obtain ⟨hclose, hbody⟩ := h
    obtain ⟨c, rfl⟩ := Option.isSome_iff_exists.mp hclose
    simp only [Node.steps, Option.toList_some, List.map_cons, List.map_nil, List.cons_append,
      List.foldl_cons, List.foldl_append, List.foldl_nil, HeaderState.next, Step.delta,
      foldl_depth body hbody]
    omega
  | .scope header openAt elseAt closeAt body (some elseBody) =>
    obtain ⟨hclose, hbody, helse⟩ := h
    obtain ⟨c, rfl⟩ := Option.isSome_iff_exists.mp hclose
    obtain ⟨e, he⟩ : ∃ e, (elseAt.or (some c)).toList = [e] := by cases elseAt <;> simp
    simp only [Node.steps, he, Option.toList_some, List.map_cons, List.map_nil, List.cons_append,
      List.foldl_cons, List.foldl_append, List.foldl_nil, HeaderState.next, Step.delta,
      foldl_depth body hbody, foldl_depth elseBody helse]
    omega

/-- Closed nodes leave the number of open scopes as it was. -/
theorem foldl_depth (nodes : List Node) (h : ClosedNodes nodes) (s : HeaderState) :
    ((stepsOf nodes).foldl HeaderState.next s).depth = s.depth := by
  match nodes with
  | [] => rfl
  | n :: rest =>
    rw [stepsOf, List.foldl_append, foldl_depth rest h.2, n.foldl_depth h.1]

end

/-- Nothing can follow a definition at the outermost level. -/
theorem checkHeaders_definition {openAt closeAt : Nat} {header : Header} {body : List Node}
    {after : List Step} (hkind : header.kind.definitionBlock?.isSome) (hbody : ClosedNodes body)
    (h : checkHeaders {}
      (.opened openAt header :: stepsOf body ++ [.closed closeAt header.kind] ++ after) =
        .ok ()) :
    after = [] := by
  have hafter := checkHeaders_append h
  cases after with
  | nil => rfl
  | cons step rest =>
    have hended := (HeaderState.check_ok (checkHeaders_cons hafter).1).1
    obtain ⟨block, hblock⟩ := Option.isSome_iff_exists.mp hkind
    simp [HeaderState.next, Step.delta, foldl_depth body hbody, Step.endedDefinition?,
      hblock] at hended

end Headers

theorem Node.steps_head (n : Node) :
    ∃ first more, n.steps = first :: more ∧ first.startsBlock = true := by
  match n with
  | .action index call => exact ⟨_, [], rfl, rfl⟩
  | .scope header openAt elseAt closeAt body none => exact ⟨.opened openAt header, _, rfl, rfl⟩
  | .scope header openAt elseAt closeAt body (some elseBody) =>
    exact ⟨.opened openAt header, _, rfl, rfl⟩

theorem stepsOf_eq_nil {nodes : List Node} (h : stepsOf nodes = []) : nodes = [] := by
  cases nodes with
  | nil => rfl
  | cons n rest =>
    obtain ⟨first, more, hfirst, _⟩ := n.steps_head
    simp [stepsOf, hfirst] at h

section Lines
variable {table : SchemaTable} {limits : Limits} {records : List Record}

/-- An event is followed by a body. -/
theorem event_line {index : Nat} {a : Action} {rest : List Node} (hwhole : WholeNodes rest)
    (hevent : a.category.isEvent = true)
    (hplain : ∀ step ∈ stepsOf rest, step.headerBlock? = none)
    (h : recordsOf table limits (stepsOf (.action index a :: rest)) = .ok records) :
    ∃ line : CodeLine, line.Derives records ∧
      line.Shows table limits (callsOf (.action index a :: rest)) := by
  obtain ⟨first, others, hfirst, hothers, rfl⟩ := recordsOf_cons h
  obtain ⟨r, hr, hfirst⟩ := bind_eq_ok.1 hfirst
  cases hfirst
  obtain ⟨b, rfl, hb⟩ := Action.record_block hr
  have hrole : b.role = .event := by simp [role_of_category hb, hevent]
  obtain ⟨trees, htrees, hshows⟩ := nodes_show rest hwhole hplain hothers
  exact ⟨.event b trees, .event hrole htrees, .event hr hshows⟩

/-- A definition has a body inside it and nothing after its end. -/
theorem definition_line {openAt closeAt : Nat} {header : Header} {body : List Node}
    (hwhole : WholeNodes body) (hkind : header.kind.definitionBlock?.isSome)
    (hplain : ∀ step ∈ stepsOf body, step.headerBlock? = none)
    (h : recordsOf table limits
      (.opened openAt header :: stepsOf body ++ [.closed closeAt header.kind]) = .ok records) :
    ∃ line : CodeLine, line.Derives records ∧ line.Shows table limits
      ((openAt, .openScope header) :: (callsOf body ++ [(closeAt, .close)])) := by
  obtain ⟨first, inner, hfirst, hinner, rfl⟩ := recordsOf_scope h
  obtain ⟨trees, htrees, hshows⟩ := nodes_show body hwhole hplain hinner
  have hblock : ∃ b, first = [.block b] ∧ b.role = .definition ∧ closing header.kind = [] := by
    cases header with
    | function d =>
      obtain ⟨b, rfl, hb⟩ := Definition.records_block hfirst
      exact ⟨b, rfl, role_of_definition (.inl hb), rfl⟩
    | process d =>
      obtain ⟨b, rfl, hb⟩ := Definition.records_block hfirst
      exact ⟨b, rfl, role_of_definition (.inr hb), rfl⟩
    | ifThen c | ifElse c | loop l => cases hkind
  obtain ⟨b, rfl, hrole, hclosing⟩ := hblock
  refine ⟨.definition b trees, ?_, .definition ⟨[], hfirst⟩ hshows⟩
  simpa [hclosing] using CodeLine.Derives.definition hrole htrees

/-- The line of a whole tree. Only its first node can be a header. -/
theorem line_of_nodes {nodes : List Node} (hwhole : WholeNodes nodes)
    (hheaders : checkHeaders {} (stepsOf nodes) = .ok ())
    (h : recordsOf table limits (stepsOf nodes) = .ok records) :
    ∃ line : CodeLine, line.Derives records ∧ line.Shows table limits (callsOf nodes) := by
  cases nodes with
  | nil =>
    cases h
    exact ⟨.plain [], .plain .empty, .plain .empty⟩
  | cons n rest =>
    obtain ⟨first, more, hsteps, hstarts⟩ := n.steps_head
    have hlater : ∀ step ∈ more ++ stepsOf rest, step.headerBlock? = none := by
      rw [stepsOf, hsteps] at hheaders
      refine checkHeaders_later ?_ (checkHeaders_cons hheaders).2
      simp [HeaderState.next, hstarts]
    have hrest : ∀ step ∈ stepsOf rest, step.headerBlock? = none :=
      fun step hstep => hlater step (List.mem_append_right _ hstep)
    by_cases hfirst : first.headerBlock? = none
    · have hplain : ∀ step ∈ stepsOf (n :: rest), step.headerBlock? = none := by
        rw [stepsOf, hsteps, List.cons_append, List.forall_mem_cons]
        exact ⟨hfirst, hlater⟩
      obtain ⟨trees, htrees, hshows⟩ := nodes_show (n :: rest) hwhole hplain h
      exact ⟨.plain trees, .plain htrees, .plain hshows⟩
    · match n with
      | .action index a =>
        obtain ⟨rfl, _⟩ := List.cons.inj hsteps
        have hevent : a.category.isEvent = true := by
          simpa [Step.headerBlock?] using hfirst
        exact event_line hwhole.2 hevent hrest h
      | .scope header openAt elseAt closeAt body (some elseBody) =>
        obtain ⟨rfl, _⟩ := List.cons.inj hsteps
        have hkind : header.kind = .ifElse := hwhole.1.2.1
        exact absurd (by simp [Step.headerBlock?, hkind, ScopeKind.definitionBlock?]) hfirst
      | .scope header openAt elseAt closeAt body none =>
        obtain ⟨hclose, _, _, hbody⟩ := hwhole.1
        obtain ⟨closeAt, rfl⟩ := Option.isSome_iff_exists.mp hclose
        obtain ⟨rfl, rfl⟩ := List.cons.inj hsteps
        have hkind : header.kind.definitionBlock?.isSome := Option.isSome_iff_ne_none.2 hfirst
        obtain rfl := stepsOf_eq_nil (checkHeaders_definition hkind hbody.closed hheaders)
        rw [stepsOf, stepsOf, List.append_nil] at h
        have hplain : ∀ step ∈ stepsOf body, step.headerBlock? = none :=
          fun step hstep => hlater step (by simp [hstep])
        simpa [callsOf, Node.calls] using definition_line hbody hkind hplain h

end Lines

namespace Compiler
variable {c : Compiler} {name : String} {calls : List SessionCall} {compiled : Compiled}

/-- A template is a code line in one way only, with the blocks of the accepted calls nested as the
calls are. So all brackets match, also in every part from the beginning. -/
theorem compile_line (h : c.compile name (Session.empty.run calls) = .ok compiled) :
    ∃ line : CodeLine, line.Derives compiled.template.document.blocks ∧
      (∀ other : CodeLine, other.Derives compiled.template.document.blocks → other = line) ∧
      line.Shows c.table c.settings.limits (treeCalls 0 (Session.empty.trace calls)) ∧
      matchBrackets [] compiled.template.document.blocks = some [] ∧
      ∀ n, (matchBrackets [] (compiled.template.document.blocks.take n)).isSome := by
  obtain ⟨steps, hflat, h⟩ := bind_eq_ok.1 h
  obtain ⟨records, hemit, h⟩ := bind_eq_ok.1 h
  cases h
  obtain ⟨_, hheaders, hrecords⟩ := bind_eq_ok.1 hemit
  obtain ⟨nodes, hwhole, rfl, hcalls⟩ := Session.run_flatten hflat
  obtain ⟨line, hderives, hshows⟩ := line_of_nodes hwhole hheaders hrecords
  rw [hcalls] at hshows
  have hmatch := hderives.matchBrackets_eq
  exact ⟨line, hderives, fun other hother => hother.unique hderives, hshows, hmatch,
    matchBrackets_take hmatch⟩

/-- A compiler that knows four actions. -/
def fewActions : Compiler :=
  { table := SchemaTable.empty.putAll [
      { block := "event", name := "Join" }, { block := "if_player", name := "IsSneaking" },
      { block := "repeat", name := "Forever" }, { block := "player_action", name := "Jump" }] }

/-- A loop in an if-else scope whose else branch is never entered, between refused calls. -/
def loopInBranch : List SessionCall :=
  [.elseBranch,
    .add { category := .event, action := "Join" },
    .openScope (.ifElse { category := .player, action := "IsSneaking", negated := true }),
    .openScope (.loop { action := "Forever" }),
    .add { category := .playerAction, action := "Jump", target := some .allPlayers },
    .close,
    .close,
    .close]

theorem compile_line_loopInBranch : ∃ compiled,
    fewActions.compile "" (Session.empty.run loopInBranch) = .ok compiled ∧
    compiled.template.document.blocks =
      [.block { block := "event", action := some "Join" },
        .block { block := "if_player", action := some "IsSneaking", inverted := some "NOT" },
        .bracket .opening .normal,
        .block { block := "repeat", action := some "Forever" },
        .bracket .opening .repeating,
        .block { block := "player_action", action := some "Jump", target := some "AllPlayers" },
        .bracket .closing .repeating,
        .bracket .closing .normal,
        .block { block := "else" },
        .bracket .opening .normal,
        .bracket .closing .normal] ∧
    ∃ line : CodeLine, line.Derives compiled.template.document.blocks ∧
      (∀ other : CodeLine, other.Derives compiled.template.document.blocks → other = line) ∧
      line.Shows fewActions.table {} (treeCalls 0 (Session.empty.trace loopInBranch)) ∧
      matchBrackets [] compiled.template.document.blocks = some [] ∧
      ∀ n, (matchBrackets [] (compiled.template.document.blocks.take n)).isSome := by
  have hcompile : ∃ compiled,
      fewActions.compile "" (Session.empty.run loopInBranch) = .ok compiled := ⟨_, rfl⟩
  obtain ⟨compiled, h⟩ := hcompile
  refine ⟨compiled, h, ?_, compile_line h⟩
  cases h
  rfl

end Compiler

end BlockTemplate
