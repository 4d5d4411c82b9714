import BlockTemplate.Proofs.Script.Places
import BlockTemplate.Proofs.Session.Frames
import BlockTemplate.Proofs.Session.Run

/-! The places that a statement is blamed at. Each is the place of the statement or of something
written in it, and an unknown variable is blamed on the call that names it. -/
namespace BlockTemplate.Script

/-- All variables of the value are visible in the session. -/
abbrev Visible (s : Session) (refs : List VarRef) : Prop :=
  ∀ v ∈ refs, s.declarations.isVisible v = true

theorem Constructor.varRef_meets (s : Session) (c : Constructor) :
    Meets (fun v => Visible s v.varRefs) (Failure.Blames s.next c.places [c.span])
      (c.varRef s) := by
  have hwide : ∀ f : Failure, f.Blames s.next c.places [] → f.Blames s.next c.places [c.span] :=
    fun f hf => hf.mono (List.Subset.refl _) (by simp)
  unfold Constructor.varRef
  split
  · next e hargs =>
    have hsub : e.places ⊆ c.places := c.positional_subset (by simp [hargs])
    refine ((c.checkNamed_faithful _).mono (fun _ => id) hwide).bind fun _ _ => ?_
    refine (((e.toName_faithful s.next).wider hsub).mono (fun _ => id) hwide).bind
      fun name _ => ?_
    cases hresolve : s.declarations.resolve? name with
    | some v =>
      simp only [Session.resolve, hresolve]
      have hvisible : Visible s [v] := by
        simpa [Visible] using Declarations.isVisible_of_resolve? hresolve
      exact hvisible
    | none =>
      simp only [Session.resolve, hresolve]
      exact .unknown name (by simp)
  · exact (c.wrongCount_leaf 1).mono (fun v hv => by simp [Visible, hv]) hwide

theorem positionalArgs_places (args : List (Option Name × Expr)) :
    placesOf (positionalArgs args) ⊆ argPlaces args := by
  induction args with
  | nil => simp [positionalArgs, placesOf]
  | cons arg rest ih =>
    obtain ⟨key, e⟩ := arg
    cases key with
    | none =>
      exact List.append_subset.2 ⟨List.subset_append_left _ _,
        List.subset_append_of_subset_right _ ih⟩
    | some key =>
      exact List.subset_cons_of_subset _ (List.subset_append_of_subset_right _ ih)

theorem namedArgs_places (args : List (Option Name × Expr)) :
    entryPlaces (namedArgs args) ⊆ argPlaces args := by
  induction args with
  | nil => simp [namedArgs, entryPlaces]
  | cons arg rest ih =>
    obtain ⟨key, e⟩ := arg
    cases key with
    | none => exact List.subset_append_of_subset_right _ ih
    | some key =>
      refine List.cons_subset_cons _ (List.append_subset.2 ⟨List.subset_append_left _ _, ?_⟩)
      exact List.subset_append_of_subset_right _ ih

theorem Constructor.places_of_call (head : Name) (args : List (Option Name × Expr)) (span : Span) :
    Constructor.places ⟨head, span, positionalArgs args, namedArgs args⟩ ⊆
      (Expr.call head args span).places :=
  List.cons_subset_cons _ (List.cons_subset_cons _ (List.append_subset.2
    ⟨positionalArgs_places args, namedArgs_places args⟩))

theorem Constructor.value_meets (s : Session) (c : Constructor) :
    Meets (fun v => Visible s v.varRefs)
      (Failure.Blames s.next c.places (if c.head.item = "var" then [c.span] else []))
      (c.value s) := by
  by_cases hvar : c.head.item = "var"
  · have hvalue : c.value s = c.varRef s := by simp [Constructor.value, hvar]
    rw [hvalue, if_pos hvar]
    exact c.varRef_meets s
  · have hleaf : Leaf s.next c (c.value s) := by
      unfold Constructor.value
      split
      · exact absurd ‹_› hvar
      · exact c.location_leaf _
      · exact c.vector_leaf _
      · exact c.item_leaf _
      · exact c.sound_leaf _
      · exact c.potion_leaf _
      · exact c.particle_leaf _
      · exact c.gameValue_leaf _
      · exact .meaningless _ (List.mem_cons_of_mem _ List.mem_cons_self)
    rw [if_neg hvar]
    exact hleaf.mono (fun v hv => by simp [Visible, hv]) fun _ => id

mutual

/-- Evaluation returns a value of visible variables or blames a part of the expression. -/
theorem Expr.value_meets (s : Session) (e : Expr) :
    Meets (fun v => Visible s v.varRefs) (Failure.Blames s.next e.places e.varCalls)
      (e.value s) := by
  match e with
  | .text t span => exact fun v hv => absurd hv (by simp [Value.varRefs])
  | .number x span => exact fun v hv => absurd hv (by simp [Value.varRefs])
  | .ident name span => exact .meaningless _ List.mem_cons_self
  | .list items span =>
    rw [Expr.value]
    refine ((valuesOf_meets s items).mono (fun _ => id) fun f hf => ?_).bind fun vs hvs => hvs
    exact hf.mono (List.subset_cons_self _ _) (List.Subset.refl _)
  | .dict entries span =>
    rw [Expr.value]
    refine ((entriesOf_meets s entries).mono (fun _ => id) fun f hf => ?_).bind fun vs hvs => hvs
    exact hf.mono (List.subset_cons_self _ _) (List.Subset.refl _)
  | .call head args span =>
    rw [Expr.value]
    refine (Constructor.value_meets s _).mono (fun _ => id) fun f hf => ?_
    exact hf.mono (Constructor.places_of_call head args span) (List.subset_append_left _ _)

theorem valuesOf_meets (s : Session) (items : List Expr) :
    Meets (fun vs => Visible s (Value.varRefsOfList vs))
      (Failure.Blames s.next (placesOf items) (varCallsOf items)) (valuesOf s items) := by
  match items with
  | [] => exact fun v hv => absurd hv (by simp [Value.varRefsOfList])
  | e :: rest =>
    refine ((e.value_meets s).mono (fun _ => id) fun f hf => ?_).bind fun v hv => ?_
    · exact hf.mono (List.subset_append_left _ _) (List.subset_append_left _ _)
    · refine ((valuesOf_meets s rest).mono (fun _ => id) fun f hf => ?_).bind fun vs hvs => ?_
      · exact hf.mono (List.subset_append_right _ _) (List.subset_append_right _ _)
      · intro r hr
        exact (List.mem_append.1 hr).elim (hv r) (hvs r)

theorem entriesOf_meets (s : Session) (entries : List (Name × Expr)) :
    Meets (fun vs => Visible s (Value.varRefsOfEntries vs))
      (Failure.Blames s.next (entryPlaces entries) (entryVarCalls entries))
      (entriesOf s entries) := by
  match entries with
  | [] => exact fun v hv => absurd hv (by simp [Value.varRefsOfEntries])
  | (key, e) :: rest =>
    refine ((e.value_meets s).mono (fun _ => id) fun f hf => ?_).bind fun v hv => ?_
    · exact hf.mono (List.subset_cons_of_subset _ (List.subset_append_left _ _))
        (List.subset_append_left _ _)
    · refine ((entriesOf_meets s rest).mono (fun _ => id) fun f hf => ?_).bind fun vs hvs => ?_
      · exact hf.mono (List.subset_cons_of_subset _ (List.subset_append_right _ _))
          (List.subset_append_right _ _)
      · intro r hr
        exact (List.mem_append.1 hr).elim (hv r) (hvs r)

end

namespace Statement

/-- The expressions that a statement evaluates. -/
def args : Statement → List Expr
  | .action line => line.args
  | .ifThen line | .ifElse line => line.args
  | .loop line => line.args
  | .function line | .process line => line.args
  | _ => []

def target? : Statement → Option Name
  | .action line => line.target
  | .ifThen line | .ifElse line => line.target
  | _ => none

/-- The places in a statement that evaluation may blame. -/
def places (st : Statement) : List Span :=
  placesOf st.args ++ (st.target?.map (·.span)).toList

end Statement

/-- The failures of a statement that is call number `next`. -/
inductive Blamed (next : Nat) (st : Located Statement) : Failure → Prop
  | meaningless (fault : MeaningFault) {span : Span} (h : span ∈ st.item.places) :
    Blamed next st (.meaningless fault span)
  | unknown (name : String) {span : Span} (h : span ∈ varCallsOf st.item.args) :
    Blamed next st (.compile (.unknownVariable next name) (some span))
  | unbalanced (fault : ScopeFault) :
    Blamed next st (.compile (.unbalancedScope next fault) (some st.span))

theorem Blamed.of_args {next : Nat} {st : Located Statement} {f : Failure}
    (h : f.Blames next (placesOf st.item.args) (varCallsOf st.item.args)) : Blamed next st f := by
  cases h with
  | meaningless fault h => exact .meaningless fault (List.mem_append_left _ h)
  | unknown name h => exact .unknown name h

/-- The session after an accepted call. -/
def Advanced (s s' : Session) : Prop :=
  ∃ call, s.accepts call = true ∧ s' = s.after call

theorem accepted_meets {s : Session} {bad : Failure → Prop} (call : SessionCall) {span : Span}
    (h : ∀ e, (s.perform call).1 = .error e → bad (.compile e (some span))) :
    Meets (Advanced s) bad (accepted span (s.perform call)) := by
  cases hcall : s.perform call with
  | mk result after =>
    cases result with
    | ok => exact ⟨call, by simp [Session.accepts, hcall, Except.isOk, Except.toBool],
        by simp [Session.after, hcall]⟩
    | error e => exact h e (by simp [hcall])

theorem unknown?_eq_none {s : Session} {values : List Value}
    (h : Visible s (Value.varRefsOfList values)) : s.unknown? values = none := by
  refine List.find?_eq_none.2 fun v hv => ?_
  simp [h v hv]

section Accepted
variable {s : Session} {bad : Failure → Prop}

/-- Evaluation has looked up every variable already, so the session knows them all. -/
theorem accepted_add_meets (span : Span) (a : Action)
    (h : Visible s (Value.varRefsOfList a.params)) :
    Meets (Advanced s) bad (accepted span (s.add a)) := by
  refine accepted_meets (.add a) fun e he => ?_
  simp [Session.perform, Session.add, unknown?_eq_none h] at he

theorem accepted_openScope_meets (span : Span) (header : Header)
    (h : Visible s (Value.varRefsOfList header.values)) :
    Meets (Advanced s) bad (accepted span (s.openScope header)) := by
  refine accepted_meets (.openScope header) fun e he => ?_
  simp [Session.perform, Session.openScope, unknown?_eq_none h] at he

theorem elseBranch_error {e : CompileError} (h : s.elseBranch.1 = .error e) :
    ∃ fault, e = .unbalancedScope s.next fault := by
  unfold Session.elseBranch at h
  split at h
  · cases h
    exact ⟨_, rfl⟩
  · split at h
    · cases h
      exact ⟨_, rfl⟩
    · split at h
      · cases h
        exact ⟨_, rfl⟩
      · cases h

theorem close_error {e : CompileError} (h : s.close.1 = .error e) :
    ∃ fault, e = .unbalancedScope s.next fault := by
  unfold Session.close at h
  split at h
  · cases h
    exact ⟨_, rfl⟩
  · cases h

end Accepted

theorem targetOf_meets (next : Nat) (target : Option Name) :
    Faithful next (target.map (·.span)).toList (targetOf target) := by
  unfold targetOf
  split
  · trivial
  · split
    · trivial
    · exact .meaningless _ (by simp)

section Statements
variable (s : Session) (st : Located Statement)

theorem args_meet : Meets (fun vs => Visible s (Value.varRefsOfList vs)) (Blamed s.next st)
    (valuesOf s st.item.args) :=
  (valuesOf_meets s st.item.args).mono (fun _ => id) fun _ hf => .of_args hf

theorem target_meets : Meets (fun _ => True) (Blamed s.next st) (targetOf st.item.target?) := by
  refine (targetOf_meets s.next st.item.target?).mono (fun _ => id) fun f hf => ?_
  cases hf with
  | meaningless fault h => exact .meaningless fault (List.mem_append_right _ h)
  | unknown name h => cases h

/-- A statement makes one call and has it accepted, or it is to blame. -/
theorem apply_meets : Meets (Advanced s) (Blamed s.next st) (st.item.apply s st.span) := by
  have hnone : Visible s (Value.varRefsOfList []) := by simp [Visible, Value.varRefsOfList]
  obtain ⟨item, span⟩ := st
  cases item with
  | event category name => exact accepted_add_meets span { category, action := name.item } hnone
  | declare scope name kind => exact ⟨.declare name.item scope kind, rfl, rfl⟩
  | action line =>
    have hline : Meets (fun a : Action => Visible s (Value.varRefsOfList a.params))
        (Blamed s.next ⟨.action line, span⟩) (line.toAction s) :=
      (args_meet s ⟨.action line, span⟩).bind fun _ hvalues =>
        (target_meets s ⟨.action line, span⟩).bind fun _ _ => hvalues
    exact hline.bind fun a ha => accepted_add_meets span a ha
  | call name =>
    exact accepted_add_meets span { category := .callFunction, action := name.item } hnone
  | start name =>
    exact accepted_add_meets span { category := .startProcess, action := name.item } hnone
  | ifThen line =>
    have hline : Meets (fun c : Condition => Visible s (Value.varRefsOfList c.values))
        (Blamed s.next ⟨.ifThen line, span⟩) (line.toCondition s) :=
      (args_meet s ⟨.ifThen line, span⟩).bind fun _ hvalues =>
        (target_meets s ⟨.ifThen line, span⟩).bind fun _ _ => hvalues
    exact hline.bind fun c hc => accepted_openScope_meets span (.ifThen c) hc
  | ifElse line =>
    have hline : Meets (fun c : Condition => Visible s (Value.varRefsOfList c.values))
        (Blamed s.next ⟨.ifElse line, span⟩) (line.toCondition s) :=
      (args_meet s ⟨.ifElse line, span⟩).bind fun _ hvalues =>
        (target_meets s ⟨.ifElse line, span⟩).bind fun _ _ => hvalues
    exact hline.bind fun c hc => accepted_openScope_meets span (.ifElse c) hc
  | otherwise =>
    refine accepted_meets .elseBranch fun e he => ?_
    obtain ⟨fault, rfl⟩ := elseBranch_error he
    exact .unbalanced fault
  | close =>
    refine accepted_meets .close fun e he => ?_
    obtain ⟨fault, rfl⟩ := close_error he
    exact .unbalanced fault
  | loop line =>
    have hline : Meets (fun l : Loop => Visible s (Value.varRefsOfList l.values))
        (Blamed s.next ⟨.loop line, span⟩) (line.toLoop s) :=
      (args_meet s ⟨.loop line, span⟩).bind fun _ hvalues => hvalues
    exact hline.bind fun l hl => accepted_openScope_meets span (.loop l) hl
  | function line =>
    have hline : Meets (fun d : Definition => Visible s (Value.varRefsOfList d.values))
        (Blamed s.next ⟨.function line, span⟩) (line.toDefinition s) :=
      (args_meet s ⟨.function line, span⟩).bind fun _ hvalues => hvalues
    exact hline.bind fun d hd => accepted_openScope_meets span (.function d) hd
  | process line =>
    have hline : Meets (fun d : Definition => Visible s (Value.varRefsOfList d.values))
        (Blamed s.next ⟨.process line, span⟩) (line.toDefinition s) :=
      (args_meet s ⟨.process line, span⟩).bind fun _ hvalues => hvalues
    exact hline.bind fun d hd => accepted_openScope_meets span (.process d) hd

end Statements

/-- The call that a statement makes in a session. -/
def Statement.toCall (s : Session) : Statement → Except Failure SessionCall
  | .event category name => .ok (.add { category, action := name.item })
  | .declare scope name kind => .ok (.declare name.item scope kind)
  | .action line => do return .add (← line.toAction s)
  | .call name => .ok (.add { category := .callFunction, action := name.item })
  | .start name => .ok (.add { category := .startProcess, action := name.item })
  | .ifThen line => do return .openScope (.ifThen (← line.toCondition s))
  | .ifElse line => do return .openScope (.ifElse (← line.toCondition s))
  | .otherwise => .ok .elseBranch
  | .close => .ok .close
  | .loop line => do return .openScope (.loop (← line.toLoop s))
  | .function line => do return .openScope (.function (← line.toDefinition s))
  | .process line => do return .openScope (.process (← line.toDefinition s))

theorem Statement.apply_eq (s : Session) (span : Span) (st : Statement) :
    st.apply s span = st.toCall s >>= fun call => accepted span (s.perform call) := by
  cases st with
  | event | declare | call | start | otherwise | close => rfl
  | action line => cases h : line.toAction s <;> simp [apply, toCall, h] <;> rfl
  | ifThen line | ifElse line =>
    cases h : line.toCondition s <;> simp [apply, toCall, h] <;> rfl
  | loop line => cases h : line.toLoop s <;> simp [apply, toCall, h] <;> rfl
  | function line | process line =>
    cases h : line.toDefinition s <;> simp [apply, toCall, h] <;> rfl

/-- A statement to blame, with all statements before it accepted. -/
def FirstBlamed (s : Session) (script : List (Located Statement)) (f : Failure) : Prop :=
  ∃ i st s', script[i]? = some st ∧ replay s (script.take i) = .ok s' ∧ s'.next = s.next + i ∧
    Blamed s'.next st f

/-- Replay makes one call per statement, or stops at the first statement to blame. -/
theorem replay_meets (s : Session) (script : List (Located Statement)) :
    Meets (fun s' => ∃ calls, calls.length = script.length ∧ s' = s.run calls)
      (FirstBlamed s script) (replay s script) := by
  induction script generalizing s with
  | nil => exact ⟨[], rfl, rfl⟩
  | cons st rest ih =>
    have happly := apply_meets s st
    rw [replay]
    cases hresult : st.item.apply s st.span with
    | error f =>
      rw [hresult] at happly
      exact ⟨0, st, s, rfl, rfl, rfl, happly⟩
    | ok t =>
      rw [hresult] at happly
      obtain ⟨call, _, rfl⟩ := happly
      refine (ih (s.after call)).mono ?_ ?_
      · rintro s' ⟨calls, hlength, rfl⟩
        exact ⟨call :: calls, by simp [hlength], rfl⟩
      · rintro f ⟨i, blamed, s', hget, hreplay, hnext, hblamed⟩
        refine ⟨i + 1, blamed, s', hget, ?_, ?_, hblamed⟩
        · rw [List.take_succ_cons, replay, hresult]
          exact hreplay
        · rw [hnext, Session.after_next]
          omega

/-- Replay stops at the first statement that fails. -/
theorem replay_error {s : Session} {script : List (Located Statement)} {f : Failure}
    (h : replay s script = .error f) : ∃ i st s', script[i]? = some st ∧
      replay s (script.take i) = .ok s' ∧ st.item.apply s' st.span = .error f := by
  induction script generalizing s with
  | nil => cases h
  | cons st rest ih =>
    rw [replay] at h
    obtain h | ⟨t, ht, h⟩ := bind_eq_error.1 h
    · exact ⟨0, st, s, rfl, rfl, h⟩
    · obtain ⟨i, failed, s', hget, hbefore, hfailed⟩ := ih h
      refine ⟨i + 1, failed, s', hget, ?_, hfailed⟩
      rw [List.take_succ_cons, replay, ht]
      exact hbefore

theorem accepted_eq_ok {span : Span} {outcome : Session.Outcome} {s : Session}
    (h : accepted span outcome = .ok s) : outcome.2 = s := by
  obtain ⟨result, after⟩ := outcome
  cases result with
  | ok => exact Except.ok.inj h
  | error e => cases h

/-- Replay runs the calls that the statements make. -/
theorem replay_calls {s session : Session} {script : List (Located Statement)}
    (h : replay s script = .ok session) : ∃ calls, session = s.run calls ∧
      ∀ i call, calls[i]? = some call → ∃ st s', script[i]? = some st ∧
        replay s (script.take i) = .ok s' ∧ st.item.toCall s' = .ok call := by
  induction script generalizing s with
  | nil =>
    cases h
    exact ⟨[], rfl, nofun⟩
  | cons st rest ih =>
    rw [replay] at h
    obtain ⟨t, ht, h⟩ := bind_eq_ok.1 h
    obtain ⟨call, hcall, haccepted⟩ := bind_eq_ok.1 (st.item.apply_eq s st.span ▸ ht)
    obtain ⟨calls, rfl, hcalls⟩ := ih h
    obtain rfl := accepted_eq_ok haccepted
    refine ⟨call :: calls, rfl, fun i other hother => ?_⟩
    cases i with
    | zero =>
      cases hother
      exact ⟨st, s, rfl, rfl, hcall⟩
    | succ i =>
      obtain ⟨made, s', hget, hbefore, hmade⟩ := hcalls i other hother
      refine ⟨made, s', hget, ?_, hmade⟩
      rw [List.take_succ_cons, replay, ht]
      exact hbefore

end BlockTemplate.Script
