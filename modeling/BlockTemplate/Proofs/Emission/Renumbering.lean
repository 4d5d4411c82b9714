import BlockTemplate.Proofs.Emission.Line
import BlockTemplate.Proofs.Session.Renumbering

/-! Emission looks at the index of a step only to blame it: other indices give the same records and
the same errors, with the other indices in them. -/
namespace BlockTemplate

section Records
variable (f : Nat → Nat) (table : SchemaTable) (limits : Limits) (i : Nat)

theorem Site.checkTarget_renumber (block action : String) (side : Option Side)
    (target : Option Target) :
    Site.checkTarget ⟨f i, block, action⟩ side target =
      (Site.checkTarget ⟨i, block, action⟩ side target).mapError (·.renumber f) := by
  unfold checkTarget
  split
  · rfl
  · split <;> rfl
  · rfl

theorem Site.checkName_renumber (block action name : String) :
    Site.checkName ⟨f i, block, action⟩ limits name =
      (Site.checkName ⟨i, block, action⟩ limits name).mapError (·.renumber f) := by
  unfold checkName
  split
  · rfl
  · split <;> rfl

theorem arguments_renumber (block action : String) (schema : ActionSchema) (values : List Value)
    (choices : TagChoices) :
    arguments ⟨f i, block, action⟩ limits schema values choices =
      arguments ⟨i, block, action⟩ limits schema values choices := by
  have htags : ∀ (tags : List TagSpec) (slot : Nat),
      tagSlots ⟨f i, block, action⟩ choices slot tags =
        tagSlots ⟨i, block, action⟩ choices slot tags := by
    intro tags
    induction tags with
    | nil => exact fun _ => rfl
    | cons tag rest ih => exact fun slot => by rw [tagSlots, tagSlots, ih]
  simp only [arguments, htags]

theorem Site.slots_renumber (block action : String) (values : List Value)
    (choices : TagChoices) :
    Site.slots ⟨f i, block, action⟩ table limits values choices =
      (Site.slots ⟨i, block, action⟩ table limits values choices).mapError (·.renumber f) := by
  have hschema : Site.schema ⟨f i, block, action⟩ table =
      (Site.schema ⟨i, block, action⟩ table).mapError (·.renumber f) := by
    unfold Site.schema
    cases table.lookup block action <;> rfl
  rw [Site.slots, Site.slots, mapError_bind, hschema]
  congr 1
  funext schema
  rw [arguments_renumber]
  cases arguments ⟨i, block, action⟩ limits schema values choices with
  | ok slots => rfl
  | error e => cases e <;> rfl

theorem Action.record_renumber (a : Action) :
    a.record table limits (f i) = (a.record table limits i).mapError (·.renumber f) := by
  simp only [Action.record, mapError_bind, Site.checkTarget_renumber]
  congr 1
  funext _
  split
  · split
    · rfl
    · simp only [mapError_bind, Site.checkName_renumber]
      rfl
  · simp only [mapError_bind, Site.slots_renumber]
    rfl

theorem Condition.records_renumber (c : Condition) :
    c.records table limits (f i) = (c.records table limits i).mapError (·.renumber f) := by
  simp only [Condition.records, mapError_bind, Site.checkTarget_renumber, Site.slots_renumber]
  rfl

theorem Loop.records_renumber (l : Loop) :
    l.records table limits (f i) = (l.records table limits i).mapError (·.renumber f) := by
  simp only [Loop.records, mapError_bind, Site.slots_renumber]
  rfl

theorem Definition.records_renumber (block : String) (d : Definition) :
    d.records table limits (f i) block =
      (d.records table limits i block).mapError (·.renumber f) := by
  simp only [Definition.records, mapError_bind, Site.checkName_renumber, Site.slots_renumber]
  rfl

theorem Step.records_renumber (step : Step) :
    (step.renumber f).records table limits =
      (step.records table limits).mapError (·.renumber f) := by
  cases step with
  | action i a =>
    rw [Step.renumber, Step.records, Step.records, mapError_bind, a.record_renumber]
    rfl
  | opened i h =>
    cases h with
    | ifThen c | ifElse c => exact c.records_renumber f table limits i
    | loop l => exact l.records_renumber f table limits i
    | function d | process d => exact d.records_renumber f table limits i _
  | switched i kind | closed i kind => rfl

theorem recordsOf_renumber (steps : List Step) :
    recordsOf table limits (steps.map (·.renumber f)) =
      (recordsOf table limits steps).mapError (·.renumber f) := by
  induction steps with
  | nil => rfl
  | cons step rest ih =>
    rw [List.map_cons, recordsOf, recordsOf, mapError_bind, step.records_renumber]
    simp only [ih, mapError_bind]
    rfl

theorem HeaderState.check_renumber (s : HeaderState) (step : Step) :
    s.check (step.renumber f) = (s.check step).mapError (·.renumber f) := by
  have hblock : (step.renumber f).headerBlock? = step.headerBlock? := by cases step <;> rfl
  have hindex : (step.renumber f).index = f step.index := by cases step <;> rfl
  unfold HeaderState.check
  rw [hblock, hindex]
  cases s.ended with
  | some block => rfl
  | none =>
    cases step.headerBlock? with
    | none => rfl
    | some block =>
      dsimp only
      split <;> rfl

theorem HeaderState.next_renumber (s : HeaderState) (step : Step) :
    s.next (step.renumber f) = s.next step := by
  cases step <;> rfl

theorem checkHeaders_renumber (s : HeaderState) (steps : List Step) :
    checkHeaders s (steps.map (·.renumber f)) =
      (checkHeaders s steps).mapError (·.renumber f) := by
  induction steps generalizing s with
  | nil => rfl
  | cons step rest ih =>
    rw [List.map_cons, checkHeaders, checkHeaders, mapError_bind, s.check_renumber,
      s.next_renumber, ih]

theorem emit_renumber (steps : List Step) :
    emit table limits (steps.map (·.renumber f)) =
      (emit table limits steps).mapError (·.renumber f) := by
  rw [emit, emit, mapError_bind, checkHeaders_renumber, recordsOf_renumber]

end Records

/-! An else mark is emitted without a look at its index, and inside a scope it cannot be
misplaced. -/

section ElseMarks
variable (table : SchemaTable) (limits : Limits) (i j : Nat) (kind : ScopeKind)
  (before after : List Step)

theorem recordsOf_switched :
    recordsOf table limits (before ++ .switched i kind :: after) =
      recordsOf table limits (before ++ .switched j kind :: after) := by
  induction before with
  | nil => rfl
  | cons step rest ih => rw [List.cons_append, List.cons_append, recordsOf, recordsOf, ih]

theorem checkHeaders_switched (s : HeaderState)
    (h : (before.foldl HeaderState.next s).ended = none) :
    checkHeaders s (before ++ .switched i kind :: after) =
      checkHeaders s (before ++ .switched j kind :: after) := by
  induction before generalizing s with
  | nil =>
    have hcheck : ∀ k, s.check (.switched k kind) = .ok () := by
      intro k
      simp only [List.foldl_nil] at h
      simp only [HeaderState.check, h, Step.headerBlock?]
      rfl
    rw [List.nil_append, List.nil_append, checkHeaders, checkHeaders, hcheck, hcheck]
    rfl
  | cons step rest ih =>
    rw [List.cons_append, List.cons_append, checkHeaders, checkHeaders, ih _ h]

theorem emit_switched (h : (before.foldl HeaderState.next {}).ended = none) :
    emit table limits (before ++ .switched i kind :: after) =
      emit table limits (before ++ .switched j kind :: after) := by
  rw [emit, emit, checkHeaders_switched i j kind before after {} h,
    recordsOf_switched table limits i j]

end ElseMarks

/-- A definition has ended only where no scope is open. -/
theorem HeaderState.ended_eq_none {steps : List Step}
    (h : (steps.foldl HeaderState.next {}).depth ≠ 0) :
    (steps.foldl HeaderState.next {}).ended = none := by
  obtain rfl | ⟨first, last, rfl⟩ := List.eq_nil_or_concat steps
  · rfl
  · simp only [List.concat_eq_append, List.foldl_append, List.foldl_cons, List.foldl_nil,
      HeaderState.next] at h ⊢
    rw [if_neg h]

end BlockTemplate
