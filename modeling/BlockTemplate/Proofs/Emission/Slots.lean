import BlockTemplate.Proofs.Emission.Steps

/-! Slots of emitted blocks. A block whose schema has no more tags than there are slots keeps to
the limit, and values that leave no slots for the tags are refused. -/
namespace BlockTemplate

namespace BlockUse

def slotValues (u : BlockUse) (schema : ActionSchema) : List Value :=
  BlockTemplate.slotValues schema.params u.values

/-- The number of slots that parameters and tags need together. -/
def needs (u : BlockUse) (schema : ActionSchema) : Nat :=
  (u.slotValues schema).length + schema.tags.length

end BlockUse

/-- What the slots of an emitted block satisfy: the limit binds all but the number of tags. -/
def Step.SlotsFit (table : SchemaTable) (limits : Limits) (step : Step) (b : CodeBlock) : Prop :=
  match step.use? with
  | none => b.items = []
  | some u => ∃ schema, table.lookup u.block u.action = some schema ∧
      (b.items.map (·.slot)).Nodup ∧
      (SlotsInOrder ⟨step.index, u.block, u.action⟩ limits schema b.items ↔
        schema.tags.length ≤ limits.maxParameters)

theorem Step.records_slotsFit {table : SchemaTable} {limits : Limits} {step : Step}
    {records : List Record} (h : step.records table limits = .ok records) {b : CodeBlock}
    (hb : .block b ∈ records) : step.SlotsFit table limits b := by
  unfold SlotsFit
  obtain ⟨hu, hitems⟩ | ⟨u, hu, hitems⟩ := block_items h hb
  · rw [hu]
    exact hitems
  · obtain ⟨schema, hlookup, harguments⟩ := Site.slots_ok hitems
    rw [hu]
    exact ⟨schema, hlookup, arguments_distinct harguments, arguments_inOrder harguments⟩

section Overfull
variable {table : SchemaTable} {limits : Limits} {step : Step} {u : BlockUse}
  {schema : ActionSchema}

/-- The values of a step leave too few slots for its tags. -/
structure Step.Overfull (table : SchemaTable) (limits : Limits) (step : Step) (u : BlockUse)
    (schema : ActionSchema) : Prop where
  use : step.use? = some u
  lookup : table.lookup u.block u.action = some schema
  overfull : limits.maxParameters < u.needs schema
  /-- Tags alone are not counted. -/
  given : u.slotValues schema = [] → schema.tags.length ≤ limits.maxParameters

theorem Step.Overfull.room (h : step.Overfull table limits u schema) :
    limits.maxParameters - schema.tags.length < (u.slotValues schema).length := by
  have hneeds : limits.maxParameters < (u.slotValues schema).length + schema.tags.length :=
    h.overfull
  obtain hnone | hsome := Nat.eq_zero_or_pos (u.slotValues schema).length
  · have := h.given (List.eq_nil_of_length_eq_zero hnone)
    omega
  · omega

theorem Step.Overfull.not_ok (h : step.Overfull table limits u schema) (records : List Record) :
    step.records table limits ≠ .ok records := by
  intro hok
  obtain ⟨build, brackets, _, _, heq⟩ := records_of_use h.use table limits
  rw [heq] at hok
  obtain ⟨_, _, hok⟩ := bind_eq_ok.1 hok
  obtain ⟨items, hitems, _⟩ := bind_eq_ok.1 hok
  obtain ⟨schema', hlookup, harguments⟩ := Site.slots_ok hitems
  cases h.lookup.symm.trans hlookup
  exact absurd (arguments_slots harguments).1 (Nat.not_le_of_lt h.room)

theorem Step.Overfull.mismatch (h : step.Overfull table limits u schema)
    (hcheck : step.checkUse limits = .ok ())
    (hvalues : ∀ v ∈ u.slotValues schema, ∃ p, v.encode limits = .ok p) :
    ∃ fault, step.records table limits =
      .error (.parameterMismatch step.index u.block u.action schema.signature fault) := by
  obtain ⟨fault, hfault⟩ := arguments_fault ⟨step.index, u.block, u.action⟩ u.choices h.room hvalues
  obtain ⟨build, brackets, _, _, heq⟩ := records_of_use h.use table limits
  refine ⟨fault, ?_⟩
  rw [heq, hcheck]
  refine bind_eq_error.2 (.inr ⟨(), rfl, bind_eq_error.2 (.inl ?_)⟩)
  refine bind_eq_error.2 (.inr ⟨schema, ?_, ?_⟩)
  · rw [Site.schema, h.lookup]
  · rw [hfault]
    rfl

end Overfull

/-- The slots of a sequence that is emitted are distinct, and they are in order for every schema
that has no more tags than there are slots. Values that leave too few slots for the tags of such a
schema, or for any tags at all, are refused as not matching it. -/
theorem emit_slots (table : SchemaTable) (limits : Limits) (steps : List Step) :
    (∀ records, emit table limits steps = .ok records → ∀ b, .block b ∈ records →
      ∃ step ∈ steps, ∃ own, step.records table limits = .ok own ∧ .block b ∈ own ∧
        step.SlotsFit table limits b) ∧
    ∀ before step after u schema, steps = before ++ step :: after →
      step.Overfull table limits u schema →
      (∀ records, emit table limits steps ≠ .ok records) ∧
      (checkHeaders {} steps = .ok () → (∃ first, recordsOf table limits before = .ok first) →
        step.checkUse limits = .ok () →
        (∀ v ∈ u.slotValues schema, ∃ p, v.encode limits = .ok p) →
        ∃ fault, emit table limits steps =
          .error (.parameterMismatch step.index u.block u.action schema.signature fault)) := by
  refine ⟨fun records h b hb => ?_, fun before step after u schema hsteps hfull => ?_⟩
  · obtain ⟨_, _, h⟩ := bind_eq_ok.1 h
    obtain ⟨step, hstep, own, hown, hb⟩ := mem_recordsOf steps h hb
    exact ⟨step, hstep, own, hown, hb, Step.records_slotsFit hown hb⟩
  · subst hsteps
    constructor
    · intro records h
      obtain ⟨_, _, h⟩ := bind_eq_ok.1 h
      obtain ⟨_, _, _, h, _⟩ := recordsOf_append h
      obtain ⟨own, _, hown, _⟩ := recordsOf_cons h
      exact hfull.not_ok own hown
    · rintro hheaders ⟨first, hfirst⟩ hcheck hvalues
      obtain ⟨fault, hfault⟩ := hfull.mismatch hcheck hvalues
      exact ⟨fault, bind_eq_error.2 (.inr ⟨(), hheaders, recordsOf_error hfirst hfault⟩)⟩

/-- An action with any number of texts and two tags. -/
def sayTexts : ActionSchema :=
  { block := "player_action", name := "Say"
    params := [{ kind := .text, plural := true, optional := true }]
    tags := [⟨"Colour", ["Red", "Blue"], "Red"⟩, ⟨"Font", ["Plain"], "Plain"⟩] }

def say (texts : List String) : Step :=
  .action 0
    { category := .playerAction, action := "Say", params := [.list (texts.map .text)]
      tags := [("Colour", "Blue")] }

def sayTable : SchemaTable := (SchemaTable.empty.insert sayTexts).2

def saySite : Site := ⟨0, "player_action", "Say"⟩

/-- Three slots hold one text and the tags, and not two texts. -/
theorem emit_slots_say :
    (∃ b, emit sayTable { maxParameters := 3 } [say ["a"]] = .ok [.block b] ∧
      b.items.map (·.slot) = [0, 1, 2] ∧
      SlotsInOrder saySite { maxParameters := 3 } sayTexts b.items) ∧
    ∃ fault, emit sayTable { maxParameters := 3 } [say ["a", "b"]] =
      .error (.parameterMismatch 0 "player_action" "Say" "(text*)" fault) := by
  constructor
  · have hemit : ∃ b, emit sayTable { maxParameters := 3 } [say ["a"]] = .ok [.block b] ∧
        b.items.map (·.slot) = [0, 1, 2] := ⟨_, rfl, rfl⟩
    obtain ⟨b, hemit, hslots⟩ := hemit
    obtain ⟨step, hstep, _, _, _, hfit⟩ :=
      (emit_slots sayTable { maxParameters := 3 } [say ["a"]]).1 _ hemit b
        List.mem_cons_self
    cases List.mem_singleton.1 hstep
    obtain ⟨schema, hlookup, _, hinOrder⟩ := hfit
    cases hlookup
    exact ⟨b, hemit, hslots, hinOrder.2 (by decide)⟩
  · have hfull : (say ["a", "b"]).Overfull sayTable { maxParameters := 3 }
        ⟨"player_action", "Say", [.list [.text "a", .text "b"]], [("Colour", "Blue")]⟩
        sayTexts := ⟨rfl, rfl, by decide, fun _ => by decide⟩
    have hvalues : ∀ v ∈ [Value.text "a", .text "b"], ∃ p,
        v.encode { maxParameters := 3 } = .ok p := by
      intro v hv
      obtain rfl | rfl := by simpa using hv
      · exact ⟨_, rfl⟩
      · exact ⟨_, rfl⟩
    exact ((emit_slots sayTable { maxParameters := 3 } [say ["a", "b"]]).2 [] _ [] _ _ rfl
      hfull).2 rfl ⟨[], rfl⟩ rfl hvalues

/-- Tags are placed without a look at the limit. -/
theorem emit_say_beyondLimit :
    ∃ b, (SchemaTable.empty.insert sayTexts).1 = .ok () ∧
      emit sayTable { maxParameters := 1 } [say []] = .ok [.block b] ∧
      b.items.map (·.slot) = [0, 1] ∧
      ¬ SlotsInOrder saySite { maxParameters := 1 } sayTexts b.items := by
  refine ⟨_, rfl, rfl, rfl, fun order => ?_⟩
  exact absurd (order.within _ (List.mem_cons_of_mem _ List.mem_cons_self)) (by decide)

end BlockTemplate
