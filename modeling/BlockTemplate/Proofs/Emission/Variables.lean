import BlockTemplate.Proofs.Emission.Sound
import BlockTemplate.Proofs.Session.CallTree
import BlockTemplate.Proofs.Session.Visibility

/-! The variables in a template. Each comes from the values of the call that its block was emitted
for, and so from a declaration that was in force at that call. -/
namespace BlockTemplate

mutual

/-- The names and classes of the variables in a parameter, at any depth. -/
def Parameter.varRecords : Parameter → List (String × String)
  | .variable name scope => [(name, scope)]
  | .list items => varRecordsOfList items
  | .dict entries => varRecordsOfEntries entries
  | _ => []

def varRecordsOfList : List Parameter → List (String × String)
  | [] => []
  | p :: rest => p.varRecords ++ varRecordsOfList rest

def varRecordsOfEntries : List (String × Parameter) → List (String × String)
  | [] => []
  | (_, p) :: rest => p.varRecords ++ varRecordsOfEntries rest

end

def Record.varRecords (r : Record) : List (String × String) := r.slots.flatMap (·.item.varRecords)

/-- A variable as documents have it. -/
def VarRef.written (v : VarRef) : String × String := (v.name, v.scope.documentWord)

namespace Value

mutual

theorem encode_varRecords {limits : Limits} (v : Value) {p : Parameter}
    (h : v.encode limits = .ok p) : p.varRecords = v.varRefs.map (·.written) := by
  match v with
  | .text _ =>
    rw [encode] at h
    cases h
    rfl
  | .number _ | .item _ | .particle _ | .gameValue _ | .variable _ =>
    rw [encode] at h
    obtain ⟨_, _, h⟩ := bind_eq_ok.1 h
    cases h
    rfl
  | .location _ =>
    rw [encode] at h
    obtain ⟨_, _, h⟩ := bind_eq_ok.1 h
    obtain ⟨_, _, h⟩ := bind_eq_ok.1 h
    obtain ⟨_, _, h⟩ := bind_eq_ok.1 h
    obtain ⟨_, _, h⟩ := bind_eq_ok.1 h
    obtain ⟨_, _, h⟩ := bind_eq_ok.1 h
    cases h
    rfl
  | .vector _ | .sound _ | .potion _ =>
    rw [encode] at h
    obtain ⟨_, _, h⟩ := bind_eq_ok.1 h
    obtain ⟨_, _, h⟩ := bind_eq_ok.1 h
    obtain ⟨_, _, h⟩ := bind_eq_ok.1 h
    cases h
    rfl
  | .list items =>
    rw [encode] at h
    obtain ⟨params, hparams, h⟩ := bind_eq_ok.1 h
    cases h
    exact encodeList_varRecords items hparams
  | .dict entries =>
    rw [encode] at h
    obtain ⟨params, hparams, h⟩ := bind_eq_ok.1 h
    cases h
    exact encodeEntries_varRecords entries hparams

theorem encodeList_varRecords {limits : Limits} (items : List Value) {params : List Parameter}
    (h : encodeList limits items = .ok params) :
    varRecordsOfList params = (varRefsOfList items).map (·.written) := by
  match items with
  | [] =>
    cases h
    rfl
  | v :: rest =>
    obtain ⟨first, hfirst, h⟩ := bind_eq_ok.1 h
    obtain ⟨others, hothers, h⟩ := bind_eq_ok.1 h
    cases h
    rw [varRecordsOfList, v.encode_varRecords hfirst, encodeList_varRecords rest hothers,
      varRefsOfList, List.map_append]

theorem encodeEntries_varRecords {limits : Limits} {seen : List String}
    (entries : List (String × Value)) {params : List (String × Parameter)}
    (h : encodeEntries limits seen entries = .ok params) :
    varRecordsOfEntries params = (varRefsOfEntries entries).map (·.written) := by
  match entries with
  | [] =>
    cases h
    rfl
  | (key, v) :: rest =>
    rw [encodeEntries] at h
    by_cases hseen : seen.contains key = true
    · simp only [hseen, if_true] at h
      cases h
    · simp only [hseen] at h
      obtain ⟨first, hfirst, h⟩ := bind_eq_ok.1 h
      obtain ⟨others, hothers, h⟩ := bind_eq_ok.1 h
      cases h
      rw [varRecordsOfEntries, v.encode_varRecords hfirst, encodeEntries_varRecords rest hothers,
        varRefsOfEntries, List.map_append]

end

theorem varRefsOfList_append (xs ys : List Value) :
    varRefsOfList (xs ++ ys) = varRefsOfList xs ++ varRefsOfList ys := by
  induction xs with
  | nil => rfl
  | cons v xs ih => simp [varRefsOfList, ih]

end Value

open Value (varRefsOfList)

/-- Taking a list apart keeps the variables and their order. -/
theorem varRefsOfList_spread (spec : ParamSpec) (values : List Value) :
    varRefsOfList (spread spec values) = varRefsOfList values := by
  fun_induction spread spec values with
  | case1 => rfl
  | case2 items rest hlist ih => rw [varRefsOfList, ih, varRefsOfList]
  | case3 items rest hlist ih =>
    rw [Value.varRefsOfList_append, ih, varRefsOfList, Value.varRefs]
  | case4 v rest hv ih => rw [varRefsOfList, ih, varRefsOfList]

/-- The variables in the slot are among these. -/
def Slot.From (refs : List VarRef) (s : Slot) : Prop :=
  ∀ x ∈ s.item.varRecords, x ∈ refs.map (·.written)

/-- Every value is in a slot, or in a list that was taken apart. -/
theorem varRefsOfList_slotValues (specs : List ParamSpec) (values : List Value) :
    varRefsOfList (slotValues specs values) = varRefsOfList values := by
  induction specs generalizing values with
  | nil => rfl
  | cons spec specs ih =>
    by_cases hplural : spec.plural = true
    · rw [slotValues_plural hplural, varRefsOfList_spread]
    · cases values with
      | nil => rw [slotValues_nil]
      | cons v rest =>
        rw [slotValues_single (Bool.not_eq_true _ ▸ hplural), varRefsOfList, ih, varRefsOfList]

theorem varRefs_subset {values : List Value} {v : Value} (hv : v ∈ values) :
    v.varRefs ⊆ varRefsOfList values := by
  induction hv with
  | head => exact List.subset_append_left _ _
  | tail _ _ ih => exact List.subset_append_of_subset_right _ ih

theorem arguments_from {site : Site} {limits : Limits} {schema : ActionSchema}
    {values : List Value} {choices : TagChoices} {slots : List Slot}
    (h : arguments site limits schema values choices = .ok slots) :
    ∀ s ∈ slots, s.From (varRefsOfList values) := by
  intro s hs x hx
  obtain ⟨v, hv, hencode⟩ | ⟨tag, _, htag⟩ := arguments_written h s hs
  · rw [v.encode_varRecords hencode] at hx
    rw [← varRefsOfList_slotValues schema.params]
    exact List.map_subset _ (varRefs_subset hv) hx
  · rw [htag] at hx
    cases hx

/-- The variables of the call that a step stands for. -/
def Step.varRefs : Step → List VarRef
  | .action _ a => varRefsOfList a.params
  | .opened _ h => varRefsOfList h.values
  | .switched _ _ | .closed _ _ => []

theorem Step.call_of_mem_varRefs {step : Step} {v : VarRef} (h : v ∈ step.varRefs) :
    ∃ c, step.call? = some c ∧ v ∈ varRefsOfList c.values := by
  cases step with
  | action index a => exact ⟨.add a, rfl, h⟩
  | opened index header => exact ⟨.openScope header, rfl, h⟩
  | switched index kind | closed index kind => cases h

/-- The variables in the records are among these. -/
def RecordsFrom (refs : List VarRef) (records : List Record) : Prop :=
  ∀ s ∈ records.flatMap Record.slots, s.From refs

section Records
variable {table : SchemaTable} {limits : Limits} {records : List Record}

theorem Step.varRefs_of_use {step : Step} {u : BlockUse} (hu : step.use? = some u) :
    varRefsOfList u.values = step.varRefs := by
  cases step with
  | action index a =>
    rw [use?] at hu
    split at hu <;> cases hu
    rfl
  | opened index header =>
    cases hu
    cases header <;> rfl
  | switched index kind | closed index kind => cases hu

theorem Step.records_from {step : Step} (h : step.records table limits = .ok records) :
    RecordsFrom step.varRefs records := by
  intro s hs
  obtain ⟨u, schema, slots, hu, _, harguments, hs⟩ := Step.use_of_slot h hs
  rw [← Step.varRefs_of_use hu]
  exact arguments_from harguments s hs

/-- The records of steps, each with the index of the call it is emitted for. -/
def indexedRecords (table : SchemaTable) (limits : Limits) :
    List Step → Except CompileError (List (Nat × Record))
  | [] => .ok []
  | step :: rest => do
    let first ← step.records table limits
    return first.map (step.index, ·) ++ (← indexedRecords table limits rest)

theorem recordsOf_indexed {steps : List Step} (h : recordsOf table limits steps = .ok records) :
    ∃ indexed, indexedRecords table limits steps = .ok indexed ∧ indexed.map (·.2) = records := by
  induction steps generalizing records with
  | nil =>
    cases h
    exact ⟨[], rfl, rfl⟩
  | cons step rest ih =>
    obtain ⟨first, hfirst, h⟩ := bind_eq_ok.1 h
    obtain ⟨others, hothers, h⟩ := bind_eq_ok.1 h
    cases h
    obtain ⟨indexed, hindexed, hmap⟩ := ih hothers
    refine ⟨first.map (step.index, ·) ++ indexed, ?_, ?_⟩
    · rw [indexedRecords, hfirst, hindexed]
      rfl
    · simp [hmap, Function.comp_def]

/-- A variable in a record comes from the step that the record is emitted for. -/
theorem indexedRecords_from {steps : List Step} {indexed : List (Nat × Record)}
    (h : indexedRecords table limits steps = .ok indexed) {i : Nat} {r : Record}
    (hr : (i, r) ∈ indexed) {x : String × String} (hx : x ∈ r.varRecords) :
    ∃ step ∈ steps, step.index = i ∧ x ∈ step.varRefs.map (·.written) := by
  induction steps generalizing indexed with
  | nil =>
    cases h
    cases hr
  | cons step rest ih =>
    obtain ⟨first, hfirst, h⟩ := bind_eq_ok.1 h
    obtain ⟨others, hothers, h⟩ := bind_eq_ok.1 h
    cases h
    obtain hr | hr := List.mem_append.1 hr
    · obtain ⟨r', hr', heq⟩ := List.mem_map.1 hr
      obtain ⟨rfl, rfl⟩ := Prod.mk.inj heq
      obtain ⟨s, hs, hxs⟩ := List.mem_flatMap.1 hx
      have hslot : s ∈ first.flatMap Record.slots := List.mem_flatMap.2 ⟨r', hr', hs⟩
      exact ⟨step, List.mem_cons_self, rfl, Step.records_from hfirst s hslot x hxs⟩
    · obtain ⟨other, hother, hstep⟩ := ih hothers hr
      exact ⟨other, List.mem_cons_of_mem _ hother, hstep⟩

end Records

namespace Compiler

/-- No variable is used out of its scope. In a template every variable comes from the accepted
call that its block was emitted for, and is declared at that call; and a call is refused for a
variable exactly if one of its variables is not declared there, the first such being named. -/
theorem compile_variables (calls : List SessionCall) :
    (∀ (c : Compiler) (name : String) (compiled : Compiled),
      c.compile name (Session.empty.run calls) = .ok compiled →
      ∃ indexed, indexedRecords c.table c.settings.limits compiled.steps = .ok indexed ∧
        indexed.map (·.2) = compiled.template.document.blocks ∧
        ∀ i r, (i, r) ∈ indexed → ∀ x ∈ r.varRecords, ∃ call v,
          (Session.empty.trace calls)[i]? = some (call, true) ∧
          v ∈ varRefsOfList call.values ∧ x = v.written ∧
          Declared (Session.empty.trace calls) i v) ∧
    ∀ call,
      ((∃ index name, ((Session.empty.run calls).perform call).1 =
          .error (.unknownVariable index name)) ↔
        ∃ v ∈ varRefsOfList call.values,
          ¬ Declared (Session.empty.trace calls) calls.length v) ∧
      ∀ index name, ((Session.empty.run calls).perform call).1 =
          .error (.unknownVariable index name) ↔
        index = calls.length ∧ ∃ v,
          FirstUndeclared (Session.empty.trace calls) calls.length call.values v ∧
          v.name = name := by
  refine ⟨fun c name compiled h => ?_, fun call => ⟨?_, fun index name => ?_⟩⟩
  · obtain ⟨steps, hflat, h⟩ := bind_eq_ok.1 h
    obtain ⟨records, hemit, h⟩ := bind_eq_ok.1 h
    cases h
    obtain ⟨_, _, hrecords⟩ := bind_eq_ok.1 hemit
    obtain ⟨indexed, hindexed, hmap⟩ := recordsOf_indexed hrecords
    obtain ⟨nodes, _, rfl, hcalls⟩ := Session.run_flatten hflat
    refine ⟨indexed, hindexed, hmap, fun i r hr x hx => ?_⟩
    obtain ⟨step, hstep, rfl, hxs⟩ := indexedRecords_from hindexed hr hx
    obtain ⟨v, hv, rfl⟩ := List.mem_map.1 hxs
    obtain ⟨call, hcall, hvcall⟩ := Step.call_of_mem_varRefs hv
    have hmem := mem_callsOf nodes hstep hcall
    rw [hcalls] at hmem
    obtain ⟨j, hj, hget⟩ := mem_treeCalls hmem
    rw [Nat.zero_add] at hj
    rw [← hj] at hget
    exact ⟨call, v, hget, hvcall, rfl, Session.declared_of_accepted hget v hvcall⟩
  · rw [← Session.exists_unknown?_iff]
    simp only [Session.perform_unknown_iff]
    constructor
    · rintro ⟨index, name, _, v, hv, _⟩
      exact ⟨v, hv⟩
    · rintro ⟨v, hv⟩
      exact ⟨_, _, rfl, v, hv, rfl⟩
  · have hnext : (Session.empty.run calls).next = calls.length := by
      rw [Session.run_next]
      exact Nat.zero_add _
    simp only [Session.perform_unknown_iff, hnext, Session.run_unknown?_iff]

/-- A compiler that knows a condition and an action with any number of values. -/
def anyValues : Compiler :=
  { table := SchemaTable.empty.putAll [
      { block := "if_player", name := "IsSneaking" },
      { block := "player_action", name := "Send"
        params := [{ kind := .any, plural := true, optional := true }] }] }

/-- Two variables, one of them deep inside. -/
def sendBoth : SessionCall :=
  .add
    { category := .playerAction, action := "Send"
      params := [.list [.dict [("k", .list [.variable ⟨"y", .localVar⟩])],
        .variable ⟨"x", .savedVar⟩]] }

/-- A variable of the first branch, and the beginning of the other. -/
def declaredInBranch : List SessionCall :=
  [.declare "x" .savedVar none,
    .openScope (.ifElse { category := .player, action := "IsSneaking" }),
    .declare "y" .localVar none,
    .elseBranch]

/-- The variable is refused in the other branch until it is declared there again. -/
def redeclaredInElse : List SessionCall :=
  declaredInBranch ++ [sendBoth, .declare "y" .localVar none, sendBoth, .close]

theorem compile_variables_redeclaredInElse :
    (∃ v, FirstUndeclared (Session.empty.trace declaredInBranch) 4 sendBoth.values v ∧
      v.name = "y") ∧
    ∃ compiled, anyValues.compile "" (Session.empty.run redeclaredInElse) = .ok compiled ∧
      compiled.template.document.blocks.flatMap Record.varRecords =
        [("y", "local"), ("x", "saved")] ∧
      ∃ indexed, indexedRecords anyValues.table {} compiled.steps = .ok indexed ∧
        indexed.map (·.2) = compiled.template.document.blocks ∧
        ∀ i r, (i, r) ∈ indexed → ∀ x ∈ r.varRecords, ∃ call v,
          (Session.empty.trace redeclaredInElse)[i]? = some (call, true) ∧
          v ∈ varRefsOfList call.values ∧ x = v.written ∧
          Declared (Session.empty.trace redeclaredInElse) i v := by
  have hrefused : ((Session.empty.run declaredInBranch).perform sendBoth).1 =
      .error (.unknownVariable 4 "y") := rfl
  refine ⟨((((compile_variables declaredInBranch).2 sendBoth).2 4 "y").1 hrefused).2, ?_⟩
  have hcompile : ∃ compiled,
      anyValues.compile "" (Session.empty.run redeclaredInElse) = .ok compiled := ⟨_, rfl⟩
  obtain ⟨compiled, h⟩ := hcompile
  refine ⟨compiled, h, ?_, (compile_variables redeclaredInElse).1 anyValues "" compiled h⟩
  cases h
  rfl

end Compiler

end BlockTemplate
