import BlockTemplate.Proofs.Emission.Placement

/-! What a step emits: one block with its arguments, or records without any. -/
namespace BlockTemplate

/-- What the arguments of a block are made from. -/
structure BlockUse where
  block : String
  action : String
  values : List Value
  choices : TagChoices

def Header.use : Header → BlockUse
  | .ifThen c | .ifElse c => ⟨c.category.id, c.action, c.values, c.tags⟩
  | .loop l => ⟨repeatBlock, l.action, l.values, l.tags⟩
  | .function d => ⟨functionBlock, definitionAction, d.values, d.tags⟩
  | .process d => ⟨processBlock, definitionAction, d.values, d.tags⟩

/-- The arguments that a step asks for. Calls have none, and neither have the ends of scopes. -/
def Step.use? : Step → Option BlockUse
  | .action _ a =>
    if a.category.isCall then none else some ⟨a.category.id, a.action, a.params, a.tags⟩
  | .opened _ h => some h.use
  | .switched _ _ | .closed _ _ => none

def Header.checkUse (limits : Limits) (index : Nat) : Header → Except CompileError Unit
  | .ifThen c | .ifElse c =>
    Site.checkTarget ⟨index, c.category.id, c.action⟩ c.category.side? c.target
  | .loop _ => .ok ()
  | .function d => Site.checkName ⟨index, functionBlock, definitionAction⟩ limits d.name
  | .process d => Site.checkName ⟨index, processBlock, definitionAction⟩ limits d.name

/-- What is checked of a step before its arguments: its target, or the name it defines. -/
def Step.checkUse (limits : Limits) : Step → Except CompileError Unit
  | .action index a =>
    Site.checkTarget ⟨index, a.category.id, a.action⟩ a.category.side? a.target
  | .opened index h => h.checkUse limits index
  | .switched _ _ | .closed _ _ => .ok ()

section Records
variable {table : SchemaTable} {limits : Limits} {records : List Record}

/-- A header is emitted as one block that holds its arguments. -/
theorem Header.records_eq (table : SchemaTable) (limits : Limits) (index : Nat) (h : Header) :
    ∃ (build : List Slot → CodeBlock) (brackets : List Record),
      (∀ items, (build items).items = items) ∧ (∀ b, .block b ∉ brackets) ∧
      h.records table limits index = do
        h.checkUse limits index
        let items ← Site.slots ⟨index, h.use.block, h.use.action⟩ table limits h.use.values
          h.use.choices
        return .block (build items) :: brackets := by
  cases h with
  | ifThen c | ifElse c => exact ⟨_, [.bracket .opening .normal], fun _ => rfl, by simp, rfl⟩
  | loop l => exact ⟨_, [.bracket .opening .repeating], fun _ => rfl, by simp, rfl⟩
  | function d | process d => exact ⟨_, [], fun _ => rfl, by simp, rfl⟩

theorem Step.records_of_use {step : Step} {u : BlockUse} (hu : step.use? = some u)
    (table : SchemaTable) (limits : Limits) :
    ∃ (build : List Slot → CodeBlock) (brackets : List Record),
      (∀ items, (build items).items = items) ∧ (∀ b, .block b ∉ brackets) ∧
      step.records table limits = do
        step.checkUse limits
        let items ← Site.slots ⟨step.index, u.block, u.action⟩ table limits u.values u.choices
        return .block (build items) :: brackets := by
  cases step with
  | action index a =>
    rw [use?] at hu
    split at hu
    · cases hu
    · next hcall =>
      cases hu
      let build (items : List Slot) : CodeBlock :=
        { block := a.category.id, items, action := some a.action
          target := a.target.map (·.name) }
      refine ⟨build, [], fun _ => rfl, by simp, ?_⟩
      simp only [Step.records, Action.record, if_neg hcall, checkUse, Step.index, bind_assoc,
        pure_bind, build]
  | opened index h =>
    cases hu
    exact h.records_eq table limits index
  | switched | closed => cases hu

theorem Step.items_of_no_use {step : Step} (hu : step.use? = none)
    (h : step.records table limits = .ok records) {b : CodeBlock} (hb : .block b ∈ records) :
    b.items = [] := by
  cases step with
  | action index a =>
    rw [use?] at hu
    split at hu
    · next hcall =>
      obtain ⟨r, hr, h⟩ := bind_eq_ok.1 h
      cases h
      obtain ⟨_, _, hr⟩ := bind_eq_ok.1 hr
      simp only [hcall, if_true] at hr
      split at hr
      · cases hr
      · obtain ⟨_, _, hr⟩ := bind_eq_ok.1 hr
        cases hr
        cases List.mem_singleton.1 hb
        rfl
    · cases hu
  | opened => cases hu
  | switched index kind =>
    cases h
    cases kind <;> simp [switching, ScopeKind.bracket?] at hb <;> simp [hb]
  | closed index kind =>
    cases h
    cases kind <;> simp [closing, ScopeKind.bracket?] at hb

/-- Every block that a step emits holds the arguments of the step. -/
theorem Step.block_items {step : Step} (h : step.records table limits = .ok records)
    {b : CodeBlock} (hb : .block b ∈ records) :
    (step.use? = none ∧ b.items = []) ∨ ∃ u, step.use? = some u ∧
      Site.slots ⟨step.index, u.block, u.action⟩ table limits u.values u.choices = .ok b.items := by
  cases hu : step.use? with
  | none => exact .inl ⟨rfl, items_of_no_use hu h hb⟩
  | some u =>
    obtain ⟨build, brackets, hbuild, hbrackets, heq⟩ := records_of_use hu table limits
    rw [heq] at h
    obtain ⟨_, _, h⟩ := bind_eq_ok.1 h
    obtain ⟨items, hitems, h⟩ := bind_eq_ok.1 h
    cases h
    obtain hb | hb := List.mem_cons.1 hb
    · cases hb
      rw [hbuild]
      exact .inr ⟨u, rfl, hitems⟩
    · exact absurd hb (hbrackets b)

theorem recordsOf_cons {step : Step} {rest : List Step}
    (h : recordsOf table limits (step :: rest) = .ok records) :
    ∃ first others, step.records table limits = .ok first ∧
      recordsOf table limits rest = .ok others ∧ records = first ++ others := by
  obtain ⟨first, hfirst, h⟩ := bind_eq_ok.1 h
  obtain ⟨others, hothers, h⟩ := bind_eq_ok.1 h
  cases h
  exact ⟨first, others, hfirst, hothers, rfl⟩

theorem recordsOf_append {xs ys : List Step}
    (h : recordsOf table limits (xs ++ ys) = .ok records) :
    ∃ first others, recordsOf table limits xs = .ok first ∧
      recordsOf table limits ys = .ok others ∧ records = first ++ others := by
  induction xs generalizing records with
  | nil => exact ⟨[], records, rfl, h, rfl⟩
  | cons step xs ih =>
    obtain ⟨first, others, hfirst, hothers, rfl⟩ := recordsOf_cons h
    obtain ⟨second, last, hsecond, hlast, rfl⟩ := ih hothers
    refine ⟨first ++ second, last, ?_, hlast, by rw [List.append_assoc]⟩
    simp only [recordsOf, hfirst, hsecond]
    rfl

/-- Every record is emitted by one of the steps. -/
theorem mem_recordsOf (steps : List Step) (h : recordsOf table limits steps = .ok records)
    {r : Record} (hr : r ∈ records) :
    ∃ step ∈ steps, ∃ own, step.records table limits = .ok own ∧ r ∈ own := by
  induction steps generalizing records with
  | nil =>
    cases h
    cases hr
  | cons step rest ih =>
    obtain ⟨first, others, hfirst, hothers, rfl⟩ := recordsOf_cons h
    obtain hr | hr := List.mem_append.1 hr
    · exact ⟨step, List.mem_cons_self, first, hfirst, hr⟩
    · obtain ⟨found, hfound, own⟩ := ih hothers hr
      exact ⟨found, List.mem_cons_of_mem step hfound, own⟩

theorem recordsOf_error {before : List Step} {step : Step} {after : List Step} {e : CompileError}
    (hbefore : recordsOf table limits before = .ok records)
    (h : step.records table limits = .error e) :
    recordsOf table limits (before ++ step :: after) = .error e := by
  induction before generalizing records with
  | nil => exact bind_eq_error.2 (.inl h)
  | cons first rest ih =>
    obtain ⟨_, _, hfirst, hothers, rfl⟩ := recordsOf_cons hbefore
    exact bind_eq_error.2 (.inr ⟨_, hfirst, bind_eq_error.2 (.inl (ih hothers))⟩)

/-- Emission stops at the first step that is refused. -/
theorem recordsOf_refused {steps : List Step} {e : CompileError}
    (h : recordsOf table limits steps = .error e) : ∃ before step after first,
      steps = before ++ step :: after ∧ recordsOf table limits before = .ok first ∧
      step.records table limits = .error e := by
  induction steps with
  | nil => cases h
  | cons step rest ih =>
    obtain h | ⟨own, hown, h⟩ := bind_eq_error.1 h
    · exact ⟨[], step, rest, [], rfl, rfl, h⟩
    · obtain h | ⟨_, _, h⟩ := bind_eq_error.1 h
      · obtain ⟨before, refused, after, first, rfl, hbefore, hrefused⟩ := ih h
        refine ⟨step :: before, refused, after, own ++ first, rfl, ?_, hrefused⟩
        simp only [recordsOf, hown, hbefore]
        rfl
      · cases h

end Records
end BlockTemplate
