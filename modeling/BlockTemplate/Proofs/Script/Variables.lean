import BlockTemplate.Proofs.Script.Blame
import BlockTemplate.Proofs.Session.Visibility

/-! Variables in scripts. A name is looked up when its expression is evaluated; the call that gets
the value never refuses it, so that an unknown variable is always the fault of one expression. -/
namespace BlockTemplate.Script

mutual

/-- The expression and those in it that are evaluated with it: items of lists and values of
dictionaries, at any depth. -/
def Expr.parts : Expr → List Expr
  | .list items span => .list items span :: partsOf items
  | .dict entries span => .dict entries span :: entryParts entries
  | e => [e]

def partsOf : List Expr → List Expr
  | [] => []
  | e :: rest => e.parts ++ partsOf rest

def entryParts : List (Name × Expr) → List Expr
  | [] => []
  | (_, e) :: rest => e.parts ++ entryParts rest

end

/-- The variable that an expression `var(name)` is about; the name is bare or in quotes. -/
def Expr.varName? : Expr → Option String
  | .call head [(none, .text name _)] _ | .call head [(none, .ident name _)] _ =>
    if head.item = "var" then some name else none
  | _ => none

/-- A variable is unknown only at an expression that is about it, and where nothing declares it. -/
def NamesUnknown (s : Session) (parts : List Expr) : Failure → Prop
  | .script _ => True
  | .compile error span => ∃ e ∈ parts, ∃ name, e.varName? = some name ∧
      s.declarations.resolve? name = none ∧ error = .unknownVariable s.next name ∧
      span = some e.span

namespace NamesUnknown
variable {s : Session} {parts more : List Expr} {f : Failure}

theorem mono (h : NamesUnknown s parts f) (hsub : parts ⊆ more) : NamesUnknown s more f := by
  cases f with
  | script errors => trivial
  | compile error span =>
    obtain ⟨e, he, hname⟩ := h
    exact ⟨e, hsub he, hname⟩

/-- What blames no variable at all. -/
theorem of_blames {next : Nat} {places : List Span} (h : f.Blames next places []) :
    NamesUnknown s parts f := by
  cases h with
  | meaningless fault h => trivial
  | unknown name h => cases h

end NamesUnknown

/-- One positional argument and no named one. -/
theorem args_of_positional {args : List (Option Name × Expr)} {e : Expr}
    (hpositional : positionalArgs args = [e]) (hnamed : namedArgs args = []) :
    args = [(none, e)] := by
  match args with
  | [] => cases hpositional
  | (some key, _) :: _ => cases hnamed
  | [(none, _)] =>
    cases hpositional
    rfl
  | (none, _) :: (none, _) :: _ => cases hpositional
  | (none, _) :: (some key, _) :: _ => cases hnamed

namespace Constructor
variable {c : Constructor}

theorem named_of_checkNamed (h : c.checkNamed [] = .ok ()) : c.named = [] := by
  unfold checkNamed at h
  cases hnamed : c.named with
  | nil => rfl
  | cons entry rest => simp [hnamed, checkNames] at h

end Constructor

theorem varName?_of_toName {head : Name} {e : Expr} {name : String} (span : Span)
    (hhead : head.item = "var") (h : e.toName = .ok name) :
    (Expr.call head [(none, e)] span).varName? = some name := by
  cases e with
  | text t _ | ident t _ =>
    cases h
    simp [Expr.varName?, hhead]
  | _ => cases h

theorem varName?_eq_some {e : Expr} {name : String} (h : e.varName? = some name) :
    ∃ head arg span, e = .call head [(none, arg)] span ∧ head.item = "var" ∧
      arg.toName = .ok name := by
  unfold Expr.varName? at h
  split at h
  · next head found place span =>
    obtain ⟨hhead, rfl⟩ : head.item = "var" ∧ found = name := by simpa using h
    exact ⟨head, .text found place, span, rfl, hhead, rfl⟩
  · next head found place span =>
    obtain ⟨hhead, rfl⟩ : head.item = "var" ∧ found = name := by simpa using h
    exact ⟨head, .ident found place, span, rfl, hhead, rfl⟩
  · cases h

section Evaluation
variable (s : Session)

/-- An expression about a variable is what its name refers to, or is to blame for it. -/
theorem value_of_varName? {e : Expr} {name : String} (h : e.varName? = some name) :
    e.value s = (s.resolve name).mapError fun error => .compile error (some e.span) := by
  obtain ⟨head, arg, span, rfl, hhead, harg⟩ := varName?_eq_some h
  rw [Expr.value, Constructor.value, hhead]
  simp only [Constructor.varRef, positionalArgs, namedArgs, Constructor.checkNamed,
    Constructor.checkNames, harg, bind, Except.bind]
  cases s.resolve name <;> rfl

theorem varRef_namesUnknown (head : Name) (args : List (Option Name × Expr)) (span : Span)
    (hhead : head.item = "var") :
    Meets (fun _ => True) (NamesUnknown s [.call head args span])
      (Constructor.varRef ⟨head, span, positionalArgs args, namedArgs args⟩ s) := by
  let c : Constructor := ⟨head, span, positionalArgs args, namedArgs args⟩
  unfold Constructor.varRef
  split
  · next e hpositional =>
    have hchecked : Faithful s.next c.places (c.checkNamed []) := c.checkNamed_faithful []
    cases hnamed : c.checkNamed [] with
    | error f =>
      rw [hnamed] at hchecked
      exact .of_blames hchecked
    | ok =>
      have hargs := args_of_positional hpositional (Constructor.named_of_checkNamed hnamed)
      have hname := e.toName_faithful s.next
      cases hread : e.toName with
      | error f =>
        rw [hread] at hname
        exact .of_blames hname
      | ok name =>
        simp only [bind, Except.bind]
        cases hresolve : s.declarations.resolve? name with
        | some v =>
          simp only [Session.resolve, hresolve]
          trivial
        | none =>
          simp only [Session.resolve, hresolve]
          refine ⟨_, List.mem_singleton_self _, name, ?_, hresolve, rfl, rfl⟩
          rw [hargs]
          exact varName?_of_toName span hhead hread
  · trivial

theorem constructor_namesUnknown (head : Name) (args : List (Option Name × Expr)) (span : Span) :
    Meets (fun _ => True) (NamesUnknown s [.call head args span])
      (Constructor.value ⟨head, span, positionalArgs args, namedArgs args⟩ s) := by
  by_cases hhead : head.item = "var"
  · have hvalue : Constructor.value ⟨head, span, positionalArgs args, namedArgs args⟩ s =
        Constructor.varRef ⟨head, span, positionalArgs args, namedArgs args⟩ s := by
      simp [Constructor.value, hhead]
    rw [hvalue]
    exact varRef_namesUnknown s head args span hhead
  · have hmeets := Constructor.value_meets s ⟨head, span, positionalArgs args, namedArgs args⟩
    rw [if_neg hhead] at hmeets
    exact hmeets.mono (fun _ _ => trivial) fun _ hf => .of_blames hf

mutual

theorem Expr.value_namesUnknown (e : Expr) :
    Meets (fun _ => True) (NamesUnknown s e.parts) (e.value s) := by
  match e with
  | .text _ _ | .number _ _ | .ident _ _ => trivial
  | .list items span =>
    rw [Expr.value]
    refine ((valuesOf_namesUnknown items).mono (fun _ => id) fun f hf => ?_).bind fun _ _ => trivial
    exact hf.mono (List.subset_cons_self _ _)
  | .dict entries span =>
    rw [Expr.value]
    refine ((entriesOf_namesUnknown entries).mono (fun _ => id) fun f hf => ?_).bind
      fun _ _ => trivial
    exact hf.mono (List.subset_cons_self _ _)
  | .call head args span =>
    rw [Expr.value]
    exact constructor_namesUnknown s head args span

theorem valuesOf_namesUnknown (items : List Expr) :
    Meets (fun _ => True) (NamesUnknown s (partsOf items)) (valuesOf s items) := by
  match items with
  | [] => trivial
  | e :: rest =>
    refine (e.value_namesUnknown.mono (fun _ => id) fun f hf => ?_).bind fun _ _ => ?_
    · exact hf.mono (List.subset_append_left _ _)
    · refine ((valuesOf_namesUnknown rest).mono (fun _ => id) fun f hf => ?_).bind
        fun _ _ => trivial
      exact hf.mono (List.subset_append_right _ _)

theorem entriesOf_namesUnknown (entries : List (Name × Expr)) :
    Meets (fun _ => True) (NamesUnknown s (entryParts entries)) (entriesOf s entries) := by
  match entries with
  | [] => trivial
  | (key, e) :: rest =>
    refine (e.value_namesUnknown.mono (fun _ => id) fun f hf => ?_).bind fun _ _ => ?_
    · exact hf.mono (List.subset_append_left _ _)
    · refine ((entriesOf_namesUnknown rest).mono (fun _ => id) fun f hf => ?_).bind
        fun _ _ => trivial
      exact hf.mono (List.subset_append_right _ _)

end

end Evaluation

section Calls
variable (s : Session)

/-- The values of the call are those of the statement's expressions. -/
theorem Statement.toCall_meets (st : Statement) :
    Meets (fun call => valuesOf s st.args = .ok call.values) (NamesUnknown s (partsOf st.args))
      (st.toCall s) := by
  have hvalues := (valuesOf_namesUnknown s st.args).returned
  have htarget : Meets (fun _ => True) (NamesUnknown s (partsOf st.args)) (targetOf st.target?) :=
    (targetOf_meets s.next st.target?).mono (fun _ => id) fun _ hf => .of_blames hf
  cases st with
  | event | declare | call | start | otherwise | close => rfl
  | action line =>
    have hline : Meets (fun a : Action => valuesOf s line.args = .ok a.params)
        (NamesUnknown s (partsOf line.args)) (line.toAction s) :=
      hvalues.bind fun _ hvs => htarget.bind fun _ _ => hvs
    exact hline.bind fun _ ha => ha
  | ifThen line | ifElse line =>
    have hline : Meets (fun c : Condition => valuesOf s line.args = .ok c.values)
        (NamesUnknown s (partsOf line.args)) (line.toCondition s) :=
      hvalues.bind fun _ hvs => htarget.bind fun _ _ => hvs
    exact hline.bind fun _ hc => hc
  | loop line =>
    have hline : Meets (fun l : Loop => valuesOf s line.args = .ok l.values)
        (NamesUnknown s (partsOf line.args)) (line.toLoop s) :=
      hvalues.bind fun _ hvs => hvs
    exact hline.bind fun _ hl => hl
  | function line | process line =>
    have hline : Meets (fun d : Definition => valuesOf s line.args = .ok d.values)
        (NamesUnknown s (partsOf line.args)) (line.toDefinition s) :=
      hvalues.bind fun _ hvs => hvs
    exact hline.bind fun _ hd => hd

variable {s}

theorem unknown?_of_valuesOf {items : List Expr} {values : List Value}
    (h : valuesOf s items = .ok values) : s.unknown? values = none :=
  unknown?_eq_none ((valuesOf_meets s items).of_ok h)

theorem perform_toCall {st : Statement} {call : SessionCall} (h : st.toCall s = .ok call)
    (index : Nat) (name : String) :
    (s.perform call).1 ≠ .error (.unknownVariable index name) := by
  intro herror
  obtain ⟨_, v, hv, _⟩ := (s.perform_unknown_iff call index name).1 herror
  rw [unknown?_of_valuesOf ((st.toCall_meets s).of_ok h)] at hv
  cases hv

/-- A statement fails with an unknown variable in its expressions only. -/
theorem apply_unknown {st : Located Statement} {index : Nat} {name : String} {span : Option Span}
    (h : st.item.apply s st.span = .error (.compile (.unknownVariable index name) span)) :
    NamesUnknown s (partsOf st.item.args) (.compile (.unknownVariable index name) span) := by
  rw [Statement.apply_eq] at h
  obtain h | ⟨call, hcall, h⟩ := bind_eq_error.1 h
  · exact (st.item.toCall_meets s).of_error h
  · cases hresult : s.perform call with
    | mk result after =>
      rw [hresult] at h
      cases result with
      | ok => cases h
      | error e =>
        cases h
        exact absurd (by rw [hresult]) (perform_toCall hcall index name)

end Calls

theorem replay_empty_indexed {script : List (Located Statement)} {s : Session}
    (h : replay .empty script = .ok s) : s.declarations.Indexed := by
  obtain ⟨calls, _, rfl⟩ := (replay_meets .empty script).of_ok h
  exact Session.run_indexed .empty calls

end BlockTemplate.Script

namespace BlockTemplate.Compiler
open Script

/-- The calls of a script never meet a variable that they do not see. What evaluation returns in a
session is visible there, at all depths, so that the call it is for is not refused for a variable.
In every session that a script reaches both ways to look a variable up agree: a name refers to a
visible variable of that name, and to nothing only if no class of it is visible. So a script fails
for a variable only at an expression about it, in the statement whose call is blamed, and with
nothing that declares it in force. -/
theorem compileScript_variables (c : Compiler) (name source : String) :
    (∀ (s : Session) (st : Located Statement),
      (∀ values, valuesOf s st.item.args = .ok values → s.unknown? values = none) ∧
      (st.item.apply s st.span =
        st.item.toCall s >>= fun call => accepted st.span (s.perform call)) ∧
      ∀ call, st.item.toCall s = .ok call → valuesOf s st.item.args = .ok call.values ∧
        ∀ index unknown, (s.perform call).1 ≠ .error (.unknownVariable index unknown)) ∧
    (∀ script s, replay .empty script = .ok s → ∀ (e : Expr) (known : String),
      e.varName? = some known →
        e.value s = (s.resolve known).mapError (fun error => .compile error (some e.span)) ∧
        (∀ v, s.declarations.resolve? known = some v →
          v.name = known ∧ s.declarations.isVisible v = true) ∧
        (s.declarations.resolve? known = none ↔
          ∀ scope, s.declarations.isVisible ⟨known, scope⟩ = false)) ∧
    ∀ index unknown span,
      c.compileScript name source = .error (.compile (.unknownVariable index unknown) span) →
      ∃ script st s, parse source = .ok script ∧ script[index]? = some st ∧
        replay .empty (script.take index) = .ok s ∧ ∃ e ∈ partsOf st.item.args,
          e.varName? = some unknown ∧ span = some e.span ∧
          s.declarations.resolve? unknown = none ∧
          ∀ scope, s.declarations.isVisible ⟨unknown, scope⟩ = false := by
  refine ⟨fun s st => ⟨fun values => unknown?_of_valuesOf, st.item.apply_eq s st.span,
    fun call hcall => ⟨(st.item.toCall_meets s).of_ok hcall, perform_toCall hcall⟩⟩, ?_, ?_⟩
  · intro script s hreplay e known he
    have hindexed := replay_empty_indexed hreplay
    exact ⟨value_of_varName? s he, fun v => hindexed.resolve?_eq_some, hindexed.resolve?_eq_none⟩
  intro index unknown span h
  obtain ⟨errors, _, hf⟩ | ⟨script, hscript, h⟩ := compileScript_cases h
  · cases hf
  · obtain hreplay | ⟨session, e, hreplay, hcompile, hf⟩ := h
    · obtain ⟨i, st, s, hget, hbefore, hfailed⟩ := replay_error hreplay
      obtain ⟨e, he, found, hname, hnone, herror, hspan⟩ := apply_unknown hfailed
      obtain ⟨rfl, rfl⟩ : index = s.next ∧ unknown = found := by simpa using herror
      rw [replay_take_next hget hbefore]
      exact ⟨script, st, s, hscript, hget, hbefore, e, he, hname, hspan, hnone,
        (replay_empty_indexed hbefore).resolve?_eq_none.1 hnone⟩
    · obtain ⟨i, _, hat, _⟩ := compile_cause hreplay hcompile
      cases hf
      exact absurd rfl (hat.known index unknown)

/-- A variable of the first branch, deep in a value of the other one. -/
def usedInElse : String :=
  "ifelse player IsSneaking\ndeclare local x\nelse\n" ++
  "action player SendMessage (\x7b\"k\": [var(x)]\x7d)"

/-- The last statement of `usedInElse`. -/
def sendDeep : Located Statement :=
  ⟨.action {
    category := .playerAction
    action := ⟨"SendMessage", ⟨60, 71⟩⟩
    target := none
    args := [.dict [(⟨"k", ⟨74, 77⟩⟩, .list [.call ⟨"var", ⟨80, 83⟩⟩
      [(none, .ident "x" ⟨84, 85⟩)] ⟨80, 86⟩] ⟨79, 87⟩)] ⟨73, 88⟩]
    tags := [] }, ⟨46, 89⟩⟩

/-- A name with two classes. -/
def declaredTwice : List (Located Statement) :=
  [⟨.declare .localVar ⟨"x", ⟨14, 15⟩⟩ none, ⟨0, 15⟩⟩,
    ⟨.declare .savedVar ⟨"x", ⟨30, 31⟩⟩ none, ⟨16, 31⟩⟩]

/-- The name that is declared twice refers to its later declaration. -/
theorem compileScript_variables_usedInElse :
    compileScript {} "" usedInElse =
      .error (.compile (.unknownVariable 3 "x") (some ⟨80, 86⟩)) ∧
    (∃ script s, parse usedInElse = .ok script ∧ script[3]? = some sendDeep ∧
      replay .empty (script.take 3) = .ok s ∧ ∃ e ∈ partsOf sendDeep.item.args,
        e.varName? = some "x" ∧ some ⟨80, 86⟩ = some e.span ∧
        s.declarations.resolve? "x" = none ∧
        ∀ scope, s.declarations.isVisible ⟨"x", scope⟩ = false) ∧
    (∃ values, valuesOf (Session.empty.declare "x" .savedVar none) sendDeep.item.args = .ok values ∧
      (Session.empty.declare "x" .savedVar none).unknown? values = none) ∧
    ∃ s, replay .empty declaredTwice = .ok s ∧
      s.declarations.resolve? "x" = some ⟨"x", .savedVar⟩ ∧
      s.declarations.isVisible ⟨"x", .savedVar⟩ = true ∧
      s.declarations.isVisible ⟨"x", .localVar⟩ = true := by
  have hread : unreadableOf (lex usedInElse) = [] := by decide +kernel
  have htokens : tokensOf (lex usedInElse) = [
      ⟨.keyword .ifElse, ⟨0, 6⟩⟩, ⟨.ident "player", ⟨7, 13⟩⟩, ⟨.ident "IsSneaking", ⟨14, 24⟩⟩,
      ⟨.keyword .declare, ⟨25, 32⟩⟩, ⟨.ident "local", ⟨33, 38⟩⟩, ⟨.ident "x", ⟨39, 40⟩⟩,
      ⟨.keyword .otherwise, ⟨41, 45⟩⟩,
      ⟨.keyword .action, ⟨46, 52⟩⟩, ⟨.ident "player", ⟨53, 59⟩⟩, ⟨.ident "SendMessage", ⟨60, 71⟩⟩,
      ⟨.punct .parenOpen, ⟨72, 73⟩⟩, ⟨.punct .braceOpen, ⟨73, 74⟩⟩, ⟨.text "k", ⟨74, 77⟩⟩,
      ⟨.punct .colon, ⟨77, 78⟩⟩, ⟨.punct .bracketOpen, ⟨79, 80⟩⟩, ⟨.ident "var", ⟨80, 83⟩⟩,
      ⟨.punct .parenOpen, ⟨83, 84⟩⟩, ⟨.ident "x", ⟨84, 85⟩⟩, ⟨.punct .parenClose, ⟨85, 86⟩⟩,
      ⟨.punct .bracketClose, ⟨86, 87⟩⟩, ⟨.punct .braceClose, ⟨87, 88⟩⟩,
      ⟨.punct .parenClose, ⟨88, 89⟩⟩] := by
    decide +kernel
  have hparse : parse usedInElse = .ok [
      ⟨.ifElse {
        category := .player
        negated := false
        action := ⟨"IsSneaking", ⟨14, 24⟩⟩
        target := none
        args := []
        tags := [] }, ⟨0, 24⟩⟩,
      ⟨.declare .localVar ⟨"x", ⟨39, 40⟩⟩ none, ⟨25, 40⟩⟩,
      ⟨.otherwise, ⟨41, 45⟩⟩,
      sendDeep] := by
    simp only [parse, hread, htokens]
    set_option maxRecDepth 2000 in rfl
  have herror : compileScript {} "" usedInElse =
      .error (.compile (.unknownVariable 3 "x") (some ⟨80, 86⟩)) := by decide +kernel
  obtain ⟨hevaluated, hreached, hunknown⟩ := compileScript_variables {} "" usedInElse
  refine ⟨herror, ?_, ⟨_, rfl, (hevaluated _ sendDeep).1 _ rfl⟩, ?_⟩
  · obtain ⟨script, st, s, hscript, hget, hrest⟩ := hunknown _ _ _ herror
    obtain rfl := Except.ok.inj (hparse.symm.trans hscript)
    cases hget
    exact ⟨_, s, hparse, rfl, hrest⟩
  · have htwice : replay .empty declaredTwice =
        .ok ((Session.empty.declare "x" .localVar none).declare "x" .savedVar none) := rfl
    obtain ⟨_, hfound, _⟩ := hreached declaredTwice _ htwice
      (.call ⟨"var", ⟨0, 3⟩⟩ [(none, .ident "x" ⟨4, 5⟩)] ⟨0, 6⟩) "x" rfl
    exact ⟨_, htwice, rfl, (hfound ⟨"x", .savedVar⟩ rfl).2, rfl⟩

end BlockTemplate.Compiler
