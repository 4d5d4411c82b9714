import BlockTemplate.Compile
import BlockTemplate.Proofs.Session.Indices

/-! What emission blames: always the call of the step that it is at. -/
namespace BlockTemplate

namespace Site
variable (site : Site)

theorem checkTarget_meets (side : Option Side) (target : Option Target) :
    Meets (fun _ => True) (CompileError.At site.index) (site.checkTarget side target) := by
  unfold checkTarget
  split
  · trivial
  · split
    · trivial
    · exact ⟨rfl, by simp⟩
  · exact ⟨rfl, by simp⟩

theorem checkName_meets (limits : Limits) (name : String) :
    Meets (fun _ => True) (CompileError.At site.index) (site.checkName limits name) := by
  unfold checkName
  split
  · exact ⟨rfl, by simp⟩
  · split
    · exact ⟨rfl, by simp⟩
    · trivial

theorem slots_meets (table : SchemaTable) (limits : Limits) (values : List Value)
    (choices : TagChoices) : Meets (fun _ => True) (CompileError.At site.index)
      (site.slots table limits values choices) := by
  have hschema : Meets (fun _ => True) (CompileError.At site.index) (site.schema table) := by
    unfold Site.schema
    split
    · trivial
    · exact ⟨rfl, by simp⟩
  refine hschema.bind fun schema _ => ?_
  split
  · trivial
  · exact ⟨rfl, by simp⟩
  · exact ⟨rfl, by simp⟩

end Site

section Records
variable (table : SchemaTable) (limits : Limits) (index : Nat)

theorem Action.record_meets (a : Action) :
    Meets (fun _ => True) (CompileError.At index) (a.record table limits index) := by
  have hsite := Site.checkTarget_meets ⟨index, a.category.id, a.action⟩
  refine (hsite _ _).bind fun _ _ => ?_
  split
  · dsimp only
    split
    · exact ⟨rfl, by simp⟩
    · refine (Site.checkName_meets ⟨index, _, _⟩ _ _).bind fun _ _ => ?_
      trivial
  · refine (Site.slots_meets ⟨index, _, _⟩ _ _ _ _).bind fun _ _ => ?_
    trivial

theorem Condition.records_meets (c : Condition) :
    Meets (fun _ => True) (CompileError.At index) (c.records table limits index) := by
  refine (Site.checkTarget_meets ⟨index, _, _⟩ _ _).bind fun _ _ => ?_
  refine (Site.slots_meets ⟨index, _, _⟩ _ _ _ _).bind fun _ _ => ?_
  trivial

theorem Loop.records_meets (l : Loop) :
    Meets (fun _ => True) (CompileError.At index) (l.records table limits index) := by
  refine (Site.slots_meets ⟨index, _, _⟩ _ _ _ _).bind fun _ _ => ?_
  trivial

theorem Definition.records_meets (block : String) (d : Definition) :
    Meets (fun _ => True) (CompileError.At index) (d.records table limits index block) := by
  refine (Site.checkName_meets ⟨index, _, _⟩ _ _).bind fun _ _ => ?_
  refine (Site.slots_meets ⟨index, _, _⟩ _ _ _ _).bind fun _ _ => ?_
  trivial

theorem Step.records_meets (step : Step) :
    Meets (fun _ => True) (CompileError.At step.index) (step.records table limits) := by
  cases step with
  | action index a => exact (a.record_meets table limits index).bind fun _ _ => trivial
  | opened index header =>
    cases header with
    | ifThen c => exact c.records_meets table limits index
    | ifElse c => exact c.records_meets table limits index
    | loop l => exact l.records_meets table limits index
    | function d => exact d.records_meets table limits index functionBlock
    | process d => exact d.records_meets table limits index processBlock
  | switched index kind => trivial
  | closed index kind => trivial

end Records

theorem HeaderState.check_meets (s : HeaderState) (step : Step) :
    Meets (fun _ => True) (CompileError.At step.index) (s.check step) := by
  unfold HeaderState.check
  dsimp only
  cases s.ended with
  | some block => exact ⟨rfl, by simp⟩
  | none =>
    cases step.headerBlock? with
    | none => trivial
    | some block =>
      dsimp only
      split
      · exact ⟨rfl, by simp⟩
      · trivial

section Steps
variable {n : Nat} (steps : List Step) (h : ∀ step ∈ steps, step.index < n)
include h

theorem checkHeaders_meets (s : HeaderState) :
    Meets (fun _ => True) (CompileError.AtSome n) (checkHeaders s steps) := by
  induction steps generalizing s with
  | nil => trivial
  | cons step rest ih =>
    rw [List.forall_mem_cons] at h
    refine ((s.check_meets step).mono (fun _ => id) fun e he => ?_).bind fun _ _ => ?_
    · exact ⟨step.index, h.1, he⟩
    · exact ih h.2 (s.next step)

theorem recordsOf_meets (table : SchemaTable) (limits : Limits) :
    Meets (fun _ => True) (CompileError.AtSome n) (recordsOf table limits steps) := by
  induction steps with
  | nil => trivial
  | cons step rest ih =>
    rw [List.forall_mem_cons] at h
    refine ((step.records_meets table limits).mono (fun _ => id) fun e he => ?_).bind fun _ _ => ?_
    · exact ⟨step.index, h.1, he⟩
    · exact (ih h.2).bind fun _ _ => trivial

end Steps

/-- A failed compilation blames a call of the session, and never for a variable. -/
theorem Compiler.compile_meets (c : Compiler) (name : String) {s : Session}
    (h : s.Below s.next) :
    Meets (fun _ => True) (CompileError.AtSome s.next) (c.compile name s) := by
  refine (flatten_meets h.finish).bind fun steps hsteps => ?_
  refine Meets.bind ((checkHeaders_meets steps hsteps {}).bind fun _ _ =>
    recordsOf_meets steps hsteps c.table c.settings.limits) fun records _ => ?_
  trivial

end BlockTemplate
