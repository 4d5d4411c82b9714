import BlockTemplate.Listing
import BlockTemplate.Proofs.Session.Unclosed
import BlockTemplate.Proofs.Value.OneLine

/-! A listing shows the nesting. Every step has a line of its own, indented by the scopes that are
open around it. -/
namespace BlockTemplate

/-- The names of actions that a header is shown with as they are. -/
def Header.actionNames : Header → List String
  | .ifThen c | .ifElse c => [c.action]
  | .loop l => l.action :: l.subAction.toList
  | .function _ | .process _ => []

namespace Step

/-- The names that a step is shown with as they are: those of actions other than calls, of
sub-actions and of variables. -/
def plainNames : Step → List String
  | .action _ a =>
    (if a.category.isCall then [] else [a.action]) ++ (Value.varRefsOfList a.params).map (·.name)
  | .opened _ h => h.actionNames ++ (Value.varRefsOfList h.values).map (·.name)
  | .switched _ _ | .closed _ _ => []

/-- Whether the step ends a body of its scope, the only one or one of two. -/
def endsBody : Step → Bool
  | .switched _ _ | .closed _ _ => true
  | .action _ _ | .opened _ _ => false

end Step

namespace Listing
open Text (joinWith)

@[simp] theorem lineFeed_not_mem_blockId (c : BlockCategory) : '\n' ∉ c.id.toList := by
  cases c <;> simp [BlockCategory.id]

@[simp] theorem lineFeed_not_mem_conditionId (c : ConditionCategory) : '\n' ∉ c.id.toList := by
  cases c <;> simp [ConditionCategory.id]

@[simp] theorem lineFeed_not_mem_targetText (t : Option Target) :
    '\n' ∉ (targetText t).toList := by
  cases t with
  | none => simp [targetText]
  | some t =>
    have hname : '\n' ∉ t.name.toList := t.oneLine_name
    simp [targetText, hname]

@[simp] theorem lineFeed_not_mem_notText (negated : Bool) : '\n' ∉ (notText negated).toList := by
  cases negated <;> simp [notText]

@[simp] theorem lineFeed_not_mem_tagsText (tags : TagChoices) : '\n' ∉ (tagsText tags).toList := by
  have hjoined : OneLine (joinWith ", " (tags.map choiceText)) := by
    refine oneLine_joinWith fun t ht => ?_
    obtain ⟨choice, _, rfl⟩ := List.mem_map.1 ht
    simp [choiceText, OneLine]
  rw [tagsText]
  split
  · simp
  · simpa [OneLine] using hjoined

theorem displayList_eq_map (values : List Value) :
    Value.displayList values = values.map (·.display) := by
  induction values with
  | nil => rfl
  | cons v rest ih => rw [Value.displayList, ih, List.map_cons]

theorem lineFeed_not_mem_valuesText {values : List Value}
    (h : ∀ name ∈ (Value.varRefsOfList values).map (·.name), OneLine name) :
    '\n' ∉ (valuesText values).toList := by
  have hvalues := Value.oneLine_displayList values fun r hr => h r.name (List.mem_map_of_mem hr)
  rw [displayList_eq_map] at hvalues
  have hjoined := oneLine_joinWith hvalues
  rw [valuesText]
  split
  · simp
  · simpa [OneLine] using hjoined

theorem oneLine_actionText {a : Action} {index : Nat}
    (h : ∀ name ∈ (Step.action index a).plainNames, OneLine name) : OneLine (actionText a) := by
  obtain ⟨haction, hparams⟩ := List.forall_mem_append.1 h
  have hvalues := lineFeed_not_mem_valuesText hparams
  rw [actionText]
  split
  · simp [OneLine]
  · next hcall =>
    have hname : '\n' ∉ a.action.toList := haction _ (by simp [hcall])
    simp [OneLine, hname, hvalues]

theorem oneLine_headerText {h : Header} (hactions : ∀ name ∈ h.actionNames, OneLine name)
    (hrefs : ∀ name ∈ (Value.varRefsOfList h.values).map (·.name), OneLine name) :
    OneLine (headerText h) := by
  have hvalues := lineFeed_not_mem_valuesText hrefs
  cases h with
  | ifThen c | ifElse c =>
    have hname : '\n' ∉ c.action.toList := hactions _ List.mem_cons_self
    simp only [Header.values] at hvalues
    simp [headerText, conditionText, OneLine, hname, hvalues]
  | loop l =>
    have hname : '\n' ∉ l.action.toList := hactions _ List.mem_cons_self
    have hsub : '\n' ∉ (subActionText l.subAction).toList := by
      cases hl : l.subAction with
      | none => simp [subActionText]
      | some sub =>
        have hsub : '\n' ∉ sub.toList := hactions _ (by simp [Header.actionNames, hl])
        simp [subActionText, hsub]
    simp only [Header.values] at hvalues
    simp [headerText, loopText, repeatBlock, OneLine, hname, hsub, hvalues]
  | function d | process d =>
    simp only [Header.values] at hvalues
    simp [headerText, definitionText, functionBlock, processBlock, OneLine, hvalues]

theorem oneLine_stepText {step : Step} (h : ∀ name ∈ step.plainNames, OneLine name) :
    OneLine (stepText step) := by
  cases step with
  | action index a => exact oneLine_actionText h
  | opened index header =>
    obtain ⟨hactions, hrefs⟩ := List.forall_mem_append.1 h
    have hheader : '\n' ∉ (headerText header).toList := oneLine_headerText hactions hrefs
    simp [stepText, OneLine, hheader]
  | switched index kind | closed index kind => simp [stepText, OneLine]

/-- The text begins with a character other than a space. -/
def Visible (s : String) : Prop := ∃ c rest, s.toList = c :: rest ∧ c ≠ ' '

theorem Visible.append {s : String} (h : Visible s) (t : String) : Visible (s ++ t) := by
  obtain ⟨c, rest, hs, hc⟩ := h
  exact ⟨c, rest ++ t.toList, by simp [hs], hc⟩

/-- Every line begins with the id of a block or with a brace. -/
theorem visible_stepText (step : Step) : Visible (stepText step) := by
  cases step with
  | action index a =>
    have hid : Visible a.category.id := by
      cases a.category <;> simp [Visible, BlockCategory.id]
    rw [stepText, actionText]
    split
    · exact (hid.append _).append _
    · exact ((((hid.append _).append _).append _).append _).append _
  | opened index header =>
    rw [stepText]
    refine Visible.append ?_ _
    cases header with
    | ifThen c | ifElse c =>
      have hid : Visible c.category.id := by
        cases c.category <;> simp [Visible, ConditionCategory.id]
      exact (((((hid.append _).append _).append _).append _).append _).append _
    | loop l =>
      have hid : Visible repeatBlock := by simp [Visible, repeatBlock]
      exact (((((hid.append _).append _).append _).append _).append _).append _
    | function d =>
      have hid : Visible functionBlock := by simp [Visible, functionBlock]
      exact (((hid.append _).append _).append _).append _
    | process d =>
      have hid : Visible processBlock := by simp [Visible, processBlock]
      exact (((hid.append _).append _).append _).append _
  | switched index kind | closed index kind => simp [stepText, Visible]

/-- The line of a step without its end. -/
def lineBody (depth : Nat) (step : Step) : List Char :=
  List.replicate (4 * level depth step) ' ' ++ (stepText step).toList

def lineBodies : Nat → List Step → List (List Char)
  | _, [] => []
  | depth, step :: rest => lineBody depth step :: lineBodies (depthAfter depth step) rest

theorem joinWith_empty_cons (s : String) (rest : List String) :
    joinWith "" (s :: rest) = s ++ joinWith "" rest := by
  cases rest <;> simp [joinWith]

theorem toList_lines (depth : Nat) (steps : List Step) :
    (joinWith "" (lines depth steps)).toList =
      (lineBodies depth steps).flatMap (· ++ ['\n']) := by
  induction steps generalizing depth with
  | nil => rfl
  | cons step rest ih =>
    rw [lines, joinWith_empty_cons, String.toList_append, ih, lineBodies, List.flatMap_cons]
    simp [line, lineBody, indent]

/-- Lines that are ended by a line feed each, and hold no other, are found again. -/
theorem splitOn_flatMap {bodies : List (List Char)} (h : ∀ body ∈ bodies, '\n' ∉ body) :
    (bodies.flatMap (· ++ ['\n'])).splitOn '\n' = bodies ++ [[]] := by
  induction bodies with
  | nil => rfl
  | cons body rest ih =>
    obtain ⟨hbody, hrest⟩ := List.forall_mem_cons.1 h
    rw [List.flatMap_cons, List.append_assoc, List.singleton_append,
      List.splitOn_append_cons_self_of_not_mem hbody, ih hrest, List.cons_append]

theorem lineFeed_not_mem_lineBodies {steps : List Step}
    (h : ∀ step ∈ steps, OneLine (stepText step)) (depth : Nat) :
    ∀ body ∈ lineBodies depth steps, '\n' ∉ body := by
  induction steps generalizing depth with
  | nil => simp [lineBodies]
  | cons step rest ih =>
    obtain ⟨hstep, hrest⟩ := List.forall_mem_cons.1 h
    refine List.forall_mem_cons.2 ⟨?_, ih hrest _⟩
    have htext : '\n' ∉ (stepText step).toList := hstep
    simp [lineBody, htext]

/-- The depth that a listing is at after steps. -/
def depthAfterAll (depth : Nat) (steps : List Step) : Nat := steps.foldl depthAfter depth

theorem lineBodies_getElem? (depth : Nat) (steps : List Step) (k : Nat) :
    (lineBodies depth steps)[k]? =
      steps[k]?.map (lineBody (depthAfterAll depth (steps.take k))) := by
  induction steps generalizing depth k with
  | nil => rfl
  | cons step rest ih =>
    cases k with
    | zero => rfl
    | succ k => exact ih (depthAfter depth step) k

theorem length_lineBodies (depth : Nat) (steps : List Step) :
    (lineBodies depth steps).length = steps.length := by
  induction steps generalizing depth with
  | nil => rfl
  | cons step rest ih => exact congrArg (· + 1) (ih _)

section Depth
variable {depth : Nat} {step : Step} (h : step.endsBody = true → 0 < depth)
include h

/-- Where a scope is open, nothing is cut off at zero. -/
theorem depthAfter_eq : (depthAfter depth step : Int) = depth + step.delta := by
  cases step with
  | action index call => simp [depthAfter, Step.delta]
  | opened index header => simp [depthAfter, Step.delta]
  | switched index kind => simp [depthAfter, Step.delta]
  | closed index kind =>
    have hpos := h rfl
    simp only [depthAfter, Step.delta]
    omega

theorem level_eq : (level depth step : Int) = depth - if step.endsBody then 1 else 0 := by
  cases step with
  | action index call => simp [level, Step.endsBody]
  | opened index header => simp [level, Step.endsBody]
  | switched index kind | closed index kind =>
    have hpos := h rfl
    simp only [level, Step.endsBody, if_true]
    omega

end Depth

/-- From a depth on, bodies end only where a scope is open, and all scopes are closed at the end. -/
def Nested : Nat → List Step → Prop
  | depth, [] => depth = 0
  | depth, step :: rest =>
    (step.endsBody = true → 0 < depth) ∧ Nested (depthAfter depth step) rest

mutual

/-- A closed scope leaves the depth as it was. -/
theorem nested_steps (n : Node) (h : n.Closed) (depth : Nat) (after : List Step) :
    Nested depth (n.steps ++ after) ↔ Nested depth after := by
  match n with
  | .action index call => simp [Node.steps, Nested, Step.endsBody, depthAfter]
  | .scope header openAt elseAt closeAt body none =>
    obtain ⟨hclose, hbody⟩ := h
    obtain ⟨c, rfl⟩ := Option.isSome_iff_exists.mp hclose
    simp [Node.steps, Nested, Step.endsBody, depthAfter, nested_stepsOf body hbody]
  | .scope header openAt elseAt closeAt body (some elseBody) =>
    obtain ⟨hclose, hbody, helse⟩ := h
    obtain ⟨c, rfl⟩ := Option.isSome_iff_exists.mp hclose
    cases elseAt <;>
      simp [Node.steps, Nested, Step.endsBody, depthAfter, nested_stepsOf body hbody,
        nested_stepsOf elseBody helse]

theorem nested_stepsOf (nodes : List Node) (h : ClosedNodes nodes) (depth : Nat)
    (after : List Step) : Nested depth (stepsOf nodes ++ after) ↔ Nested depth after := by
  match nodes with
  | [] => rfl
  | n :: rest => rw [stepsOf, List.append_assoc, nested_steps n h.1, nested_stepsOf rest h.2]

end

namespace Nested
variable {depth : Nat} {steps : List Step}

theorem of_flatten {nodes : List Node} (h : flatten nodes = .ok steps) : Nested 0 steps := by
  obtain ⟨hclosed, rfl⟩ := flatten_eq_ok h
  have hnested := (nested_stepsOf nodes hclosed 0 []).2 rfl
  rwa [List.append_nil] at hnested

theorem ends (h : Nested depth steps) : depthAfterAll depth steps = 0 := by
  induction steps generalizing depth with
  | nil => exact h
  | cons step rest ih => exact ih h.2

theorem pos_of_endsBody (h : Nested depth steps) {k : Nat} {step : Step}
    (hk : steps[k]? = some step) (hstep : step.endsBody = true) :
    0 < depthAfterAll depth (steps.take k) := by
  induction steps generalizing depth k with
  | nil => cases hk
  | cons first rest ih =>
    cases k with
    | zero =>
      cases hk
      exact h.1 hstep
    | succ k => exact ih h.2 hk

theorem depth_eq (h : Nested depth steps) (k : Nat) :
    (depthAfterAll depth (steps.take k) : Int) =
      depth + BlockTemplate.depthAfter (steps.take k) := by
  induction steps generalizing depth k with
  | nil => simp [depthAfterAll, BlockTemplate.depthAfter]
  | cons step rest ih =>
    cases k with
    | zero => simp [depthAfterAll, BlockTemplate.depthAfter]
    | succ k =>
      have hrest := ih h.2 k
      rw [depthAfter_eq h.1] at hrest
      rw [List.take_succ_cons, BlockTemplate.depthAfter, ← Int.add_assoc, ← hrest]
      rfl

end Nested

/-- A listing has one line for each step, in order. The line of a step is indented by four spaces
for each scope that is open before it, one scope less where a body ends, and then shows the step
with no more space in front. The depth is never cut off at zero and ends there. None of this
depends on texts, keys and names that are shown in quotes: these may hold line feeds. -/
theorem render_flatten {nodes : List Node} {steps : List Step} (h : flatten nodes = .ok steps)
    (hnames : ∀ step ∈ steps, ∀ name ∈ step.plainNames, OneLine name) :
    (∃ bodies : List (List Char), (render steps).toList.splitOn '\n' = bodies ++ [[]] ∧
      bodies.length = steps.length ∧
      ∀ k step, steps[k]? = some step → ∃ (d : Nat) (c : Char) (rest : List Char),
        (d : Int) = BlockTemplate.depthAfter (steps.take k) - (if step.endsBody then 1 else 0) ∧
        bodies[k]? = some (List.replicate (4 * d) ' ' ++ c :: rest) ∧ c ≠ ' ' ∧
        (stepText step).toList = c :: rest) ∧
    (∀ k, (depthAfterAll 0 (steps.take k) : Int) = BlockTemplate.depthAfter (steps.take k)) ∧
    (∀ k step, steps[k]? = some step → step.endsBody = true →
      0 < depthAfterAll 0 (steps.take k)) ∧
    depthAfterAll 0 steps = 0 := by
  have hnested := Nested.of_flatten h
  have hdepth : ∀ k, (depthAfterAll 0 (steps.take k) : Int) =
      BlockTemplate.depthAfter (steps.take k) := fun k => by
    simpa using hnested.depth_eq k
  refine ⟨⟨lineBodies 0 steps, ?_, length_lineBodies 0 steps, fun k step hk => ?_⟩, hdepth,
    fun k step => hnested.pos_of_endsBody, hnested.ends⟩
  · rw [render, toList_lines]
    exact splitOn_flatMap (lineFeed_not_mem_lineBodies (fun s hs => oneLine_stepText (hnames s hs)) 0)
  · obtain ⟨c, rest, htext, hc⟩ := visible_stepText step
    refine ⟨level (depthAfterAll 0 (steps.take k)) step, c, rest, ?_, ?_, hc, htext⟩
    · rw [level_eq (hnested.pos_of_endsBody hk), hdepth]
    · rw [lineBodies_getElem?, hk, Option.map_some, lineBody, htext]

/-- A message to those who sneak, a call for the others, with line feeds in all quoted places. -/
def greeting : List Node :=
  [.scope (.ifElse { category := .player, action := "IsSneaking" }) 0 (some 2) (some 4)
    [.action 1
      { category := .playerAction
        action := "SendMessage"
        params := [.dict [("one\ntwo", .list [.text "a\nb", .variable ⟨"x", .localVar⟩])]]
        tags := [("c\nd", "e\nf")] }]
    (some [.action 3 { category := .callFunction, action := "say\nhi" }])]

theorem render_flatten_greeting : ∃ steps, flatten greeting = .ok steps ∧
    (∀ step ∈ steps, ∀ name ∈ step.plainNames, OneLine name) ∧
    ∃ bodies : List (List Char), (render steps).toList.splitOn '\n' = bodies ++ [[]] ∧
      bodies.length = 5 ∧ bodies[2]? = some "\x7d else \x7b".toList ∧
      ∃ c rest, bodies[3]? = some (List.replicate 4 ' ' ++ c :: rest) ∧ c ≠ ' ' := by
  have hflat : flatten greeting = .ok (stepsOf greeting) := rfl
  have hnames : ∀ step ∈ stepsOf greeting, ∀ name ∈ step.plainNames, OneLine name := by
    simp [greeting, stepsOf, Node.steps, Step.plainNames, Header.actionNames, Header.values,
      Value.varRefsOfList, Value.varRefs, Value.varRefsOfEntries, BlockCategory.isCall, OneLine]
  obtain ⟨⟨bodies, hsplit, hlength, hlines⟩, _⟩ := render_flatten hflat hnames
  obtain ⟨d, c, rest, hd, hline, hc, htext⟩ := hlines 2 (.switched 2 .ifElse) rfl
  obtain ⟨d', c', rest', hd', hline', hc', _⟩ :=
    hlines 3 (.action 3 { category := .callFunction, action := "say\nhi" }) rfl
  have hzero : d = 0 := Int.ofNat.inj hd
  have hone : d' = 1 := Int.ofNat.inj hd'
  subst hzero hone
  refine ⟨_, hflat, hnames, bodies, hsplit, hlength, ?_, c', rest', hline', hc'⟩
  rw [hline, ← htext]
  rfl

end Listing
end BlockTemplate
