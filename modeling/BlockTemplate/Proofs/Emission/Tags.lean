import BlockTemplate.Proofs.Emission.Matching
import BlockTemplate.Proofs.Emission.Steps
import BlockTemplate.Proofs.Schema.Table
import BlockTemplate.Proofs.Value.Encoding

/-! Tags do not depend on how they are given: neither their order nor whether a default is named
can be told from the records, which hold every tag of the schema once. -/
namespace BlockTemplate

/-- The option that a tag has among the ones that are given. -/
def Chosen (choices : TagChoices) (tag : TagSpec) (option : String) : Prop :=
  (tag.name, option) ∈ choices ∨ option = tag.default ∧ ∀ choice ∈ choices, choice.1 ≠ tag.name

/-- The same options for the same tags, given in another order or with other defaults named. -/
inductive SameChoices (tags : List TagSpec) : TagChoices → TagChoices → Prop
  | perm {choices others : TagChoices} (h : choices.Perm others) : SameChoices tags choices others
  | named {choices : TagChoices} {tag : TagSpec} (htag : tag ∈ tags)
      (hnew : ∀ choice ∈ choices, choice.1 ≠ tag.name) :
      SameChoices tags choices ((tag.name, tag.default) :: choices)
  | leftOut {choices : TagChoices} {tag : TagSpec} (htag : tag ∈ tags) :
      SameChoices tags ((tag.name, tag.default) :: choices) choices
  | trans {choices between others : TagChoices} (first : SameChoices tags choices between)
      (second : SameChoices tags between others) : SameChoices tags choices others

section Choices
variable {choices others : TagChoices} {tag : TagSpec} {option : String}

theorem Chosen.unique {option' : String} (hnodup : (choices.map (·.1)).Nodup)
    (h : Chosen choices tag option) (h' : Chosen choices tag option') : option = option' := by
  obtain h | ⟨rfl, habsent⟩ := h
  · obtain h' | ⟨_, habsent'⟩ := h'
    · exact congrArg Prod.snd (List.inj_on_of_nodup_map hnodup h h' rfl)
    · exact absurd rfl (habsent' _ h)
  · obtain h' | ⟨rfl, _⟩ := h'
    · exact absurd rfl (habsent _ h')
    · rfl

theorem Chosen.perm (h : Chosen choices tag option) (hperm : choices.Perm others) :
    Chosen others tag option :=
  h.imp hperm.mem_iff.1 (And.imp_right fun habsent choice hchoice =>
    habsent choice (hperm.mem_iff.2 hchoice))

/-- A tag that is not named may as well be named with its default. -/
theorem chosen_cons_default {named : TagSpec} (hnew : ∀ choice ∈ choices, choice.1 ≠ named.name)
    (hunique : tag.name = named.name → tag = named) :
    Chosen ((named.name, named.default) :: choices) tag option ↔ Chosen choices tag option := by
  by_cases hname : tag.name = named.name
  · obtain rfl := hunique hname
    have habsent : (tag.name, option) ∉ choices := fun h => hnew _ h rfl
    simp only [Chosen, List.mem_cons, Prod.mk.injEq, true_and, habsent, or_false, false_or]
    constructor
    · rintro (h | ⟨h, _⟩)
      · exact ⟨h, hnew⟩
      · exact ⟨h, hnew⟩
    · rintro ⟨h, _⟩
      exact .inl h
  · simp [Chosen, hname, Ne.symm hname]

/-- Where there are no tags nothing can be named. -/
theorem SameChoices.perm_of_nil (h : SameChoices [] choices others) : choices.Perm others := by
  generalize hnone : ([] : List TagSpec) = tags at h
  induction h with
  | perm h => exact h
  | named htag | leftOut htag =>
    subst hnone
    cases htag
  | trans _ _ first second => exact first.trans second

end Choices

section Arguments
variable {site : Site} {limits : Limits} {schema : ActionSchema} {values : List Value}
  {choices others : TagChoices} {items : List Slot}

theorem checkTags_defaults (tags : List TagSpec) {seen : List String}
    (h : ActionSchema.checkTags seen tags = .ok ()) : ∀ tag ∈ tags, tag.default ∈ tag.options := by
  induction tags generalizing seen with
  | nil => simp
  | cons tag rest ih =>
    rw [ActionSchema.checkTags] at h
    split at h
    · cases h
    · split at h
      · cases h
      · next hdefault => exact List.forall_mem_cons.2 ⟨by simpa using hdefault, ih h⟩

theorem ActionSchema.check_defaults (h : schema.check = .ok ()) :
    ∀ tag ∈ schema.tags, tag.default ∈ tag.options := by
  obtain ⟨_, _, htags⟩ := bind_eq_ok.1 h
  exact checkTags_defaults _ htags

theorem ActionSchema.tag_unique (h : schema.check = .ok ()) {tag other : TagSpec}
    (htag : tag ∈ schema.tags) (hother : other ∈ schema.tags) (hname : tag.name = other.name) :
    tag = other := by
  have hfound := (ActionSchema.tag?_eq_some_iff h other.name tag).2 ⟨htag, hname⟩
  exact Option.some.inj (hfound.symm.trans
    ((ActionSchema.tag?_eq_some_iff h other.name other).2 ⟨hother, rfl⟩))

/-- The arguments depend on the option of each tag only. -/
theorem arguments_of_chosen (hcheck : schema.check = .ok ())
    (h : arguments site limits schema values choices = .ok items)
    (htags : ∀ choice ∈ others, ∃ tag ∈ schema.tags, tag.name = choice.1 ∧ choice.2 ∈ tag.options)
    (honce : (others.map (·.1)).Nodup)
    (hchosen : ∀ tag ∈ schema.tags, ∀ option, Chosen choices tag option →
      Chosen others tag option) :
    arguments site limits schema values others = .ok items := by
  obtain ⟨hmatches, params, hplaced, rfl⟩ := (arguments_eq_ok_iff hcheck).1 h
  refine (arguments_eq_ok_iff hcheck).2 ⟨{ hmatches with tags := htags, once := honce },
    params, hplaced, ?_⟩
  have hsame : ∀ tag ∈ schema.tags, chosenOption choices tag = chosenOption others tag :=
    fun tag htag => (hchosen tag htag _ (chosenOption_cases choices tag)).unique honce
      (chosenOption_cases others tag)
  rw [tagSlots_eq_zipIdx, tagSlots_eq_zipIdx]
  congr 1
  refine List.map_congr_left fun t ht => ?_
  rw [hsame t.1 (List.fst_mem_of_mem_zipIdx ht)]

theorem SameChoices.arguments (hcheck : schema.check = .ok ())
    (hsame : SameChoices schema.tags choices others)
    (h : arguments site limits schema values choices = .ok items) :
    arguments site limits schema values others = .ok items := by
  induction hsame with
  | perm hperm =>
    have hmatches := ((arguments_eq_ok_iff hcheck).1 h).1
    exact arguments_of_chosen hcheck h
      (fun choice hchoice => hmatches.tags choice (hperm.mem_iff.2 hchoice))
      ((hperm.map _).nodup_iff.1 hmatches.once) fun tag _ option hchosen => hchosen.perm hperm
  | @named choices tag htag hnew =>
    have hmatches := ((arguments_eq_ok_iff hcheck).1 h).1
    refine arguments_of_chosen hcheck h ?_ ?_ fun other hother option hchosen => ?_
    · exact List.forall_mem_cons.2
        ⟨⟨tag, htag, rfl, ActionSchema.check_defaults hcheck tag htag⟩, hmatches.tags⟩
    · rw [List.map_cons, List.nodup_cons]
      refine ⟨fun hmem => ?_, hmatches.once⟩
      obtain ⟨choice, hchoice, hname⟩ := List.mem_map.1 hmem
      exact hnew choice hchoice hname
    · exact (chosen_cons_default hnew (ActionSchema.tag_unique hcheck hother htag)).2 hchosen
  | @leftOut choices tag htag =>
    have hmatches := ((arguments_eq_ok_iff hcheck).1 h).1
    obtain ⟨_, htags⟩ := List.forall_mem_cons.1 hmatches.tags
    obtain ⟨hnew, honce⟩ := List.nodup_cons.1 hmatches.once
    refine arguments_of_chosen hcheck h htags honce fun other hother option hchosen => ?_
    refine (chosen_cons_default (fun choice hchoice hname => hnew ?_)
      (ActionSchema.tag_unique hcheck hother htag)).1 hchosen
    exact List.mem_map.2 ⟨choice, hchoice, hname⟩
  | trans _ _ first second => exact second (first h)

theorem Site.slots_of_arguments {site : Site} {table : SchemaTable}
    (hlookup : table.lookup site.block site.action = some schema)
    (h : arguments site limits schema values choices = .ok items) :
    site.slots table limits values choices = .ok items := by
  refine bind_eq_ok.2 ⟨schema, ?_, ?_⟩
  · rw [Site.schema, hlookup]
  · rw [h]
    rfl

end Arguments

/-! ### Steps -/

def Header.tags : Header → TagChoices
  | .ifThen c | .ifElse c => c.tags
  | .loop l => l.tags
  | .function d | .process d => d.tags

def Header.withTags (choices : TagChoices) : Header → Header
  | .ifThen c => .ifThen { c with tags := choices }
  | .ifElse c => .ifElse { c with tags := choices }
  | .loop l => .loop { l with tags := choices }
  | .function d => .function { d with tags := choices }
  | .process d => .process { d with tags := choices }

namespace Step

/-- The tags given with a step. -/
def tags : Step → TagChoices
  | .action _ a => a.tags
  | .opened _ h => h.tags
  | .switched _ _ | .closed _ _ => []

def withTags (choices : TagChoices) : Step → Step
  | .action index a => .action index { a with tags := choices }
  | .opened index h => .opened index (h.withTags choices)
  | .switched index kind => .switched index kind
  | .closed index kind => .closed index kind

/-- The tags that the schema of a step has. -/
def tagSpecs (table : SchemaTable) (step : Step) : List TagSpec :=
  match step.use? with
  | none => []
  | some u =>
    match table.lookup u.block u.action with
    | none => []
    | some schema => schema.tags

/-- A step that is the same but for the way its tags are given. -/
def Retagged (table : SchemaTable) (step other : Step) : Prop :=
  ∃ choices, SameChoices (step.tagSpecs table) step.tags choices ∧ other = step.withTags choices

theorem tagSpecs_of_no_use {step : Step} (hu : step.use? = none) (table : SchemaTable) :
    step.tagSpecs table = [] := by
  rw [tagSpecs, hu]

theorem tagSpecs_of_lookup {step : Step} {u : BlockUse} (hu : step.use? = some u)
    {table : SchemaTable} {schema : ActionSchema}
    (hlookup : table.lookup u.block u.action = some schema) :
    step.tagSpecs table = schema.tags := by
  simp only [tagSpecs, hu, hlookup]

theorem withTags_tags (step : Step) : step.withTags step.tags = step := by
  cases step with
  | opened index h => cases h <;> rfl
  | _ => rfl

theorem use?_choices {step : Step} {u : BlockUse} (h : step.use? = some u) :
    u.choices = step.tags := by
  cases step with
  | action index a =>
    rw [use?] at h
    split at h
    · cases h
    · cases h
      rfl
  | opened index header =>
    cases h
    cases header <;> rfl
  | switched | closed => cases h

section Records
variable {table : SchemaTable} {limits : Limits}

/-- The tags of a step have a part in its arguments only. -/
theorem records_withTags {step : Step} {u : BlockUse} (hu : step.use? = some u)
    (table : SchemaTable) (limits : Limits) :
    ∃ (build : List Slot → CodeBlock) (brackets : List Record),
      (∀ items, (build items).items = items ∧ (build items).block = u.block) ∧
      (∀ b, .block b ∉ brackets) ∧
      ∀ choices, (step.withTags choices).records table limits = do
        step.checkUse limits
        let items ← Site.slots ⟨step.index, u.block, u.action⟩ table limits u.values choices
        return .block (build items) :: brackets := by
  cases step with
  | action index a =>
    rw [use?] at hu
    split at hu
    · cases hu
    · next hcall =>
      cases hu
      let build (items : List Slot) : CodeBlock :=
        { block := a.category.id, items, action := some a.action
          target := a.target.map (·.name) }
      refine ⟨build, [], fun _ => ⟨rfl, rfl⟩, by simp, fun choices => ?_⟩
      simp only [withTags, Step.records, Action.record, if_neg hcall, checkUse, Step.index,
        bind_assoc, pure_bind, build]
  | opened index h =>
    cases hu
    cases h with
    | ifThen c | ifElse c =>
      let build (items : List Slot) : CodeBlock :=
        { block := c.category.id, items, action := some c.action
          target := c.target.map (·.name), inverted := invertedMark c.negated }
      exact ⟨build, [.bracket .opening .normal], fun _ => ⟨rfl, rfl⟩, by simp, fun _ => rfl⟩
    | loop l =>
      let build (items : List Slot) : CodeBlock :=
        { block := repeatBlock, items, action := some l.action, subAction := l.subAction
          inverted := invertedMark l.negated }
      exact ⟨build, [.bracket .opening .repeating], fun _ => ⟨rfl, rfl⟩, by simp, fun _ => rfl⟩
    | function d =>
      exact ⟨fun items => { block := functionBlock, items, data := some d.name }, [],
        fun _ => ⟨rfl, rfl⟩, by simp, fun _ => rfl⟩
    | process d =>
      exact ⟨fun items => { block := processBlock, items, data := some d.name }, [],
        fun _ => ⟨rfl, rfl⟩, by simp, fun _ => rfl⟩
  | switched | closed => cases hu

/-- Without a schema only the number of the tags is looked at. -/
theorem records_of_length {step : Step} (hu : step.use? = none) {choices : TagChoices}
    (hlength : step.tags.length = choices.length) :
    (step.withTags choices).records table limits = step.records table limits := by
  cases step with
  | action index a =>
    rw [use?] at hu
    split at hu
    · next hcall =>
      have htags : a.tags.length = choices.length := hlength
      simp only [withTags, Step.records, Action.record, if_pos hcall, htags]
    · cases hu
  | opened => cases hu
  | switched | closed => rfl

theorem Retagged.records {step other : Step} (hbuilt : table.Built)
    (h : step.Retagged table other) {own : List Record}
    (hown : step.records table limits = .ok own) : other.records table limits = .ok own := by
  obtain ⟨choices, hsame, rfl⟩ := h
  cases hu : step.use? with
  | none =>
    rw [tagSpecs_of_no_use hu] at hsame
    rw [records_of_length hu hsame.perm_of_nil.length_eq]
    exact hown
  | some u =>
    obtain ⟨build, brackets, _, _, heq⟩ := records_withTags hu table limits
    rw [← step.withTags_tags, heq] at hown
    obtain ⟨_, hcheck, hown⟩ := bind_eq_ok.1 hown
    obtain ⟨items, hitems, hown⟩ := bind_eq_ok.1 hown
    obtain ⟨schema, hlookup, harguments⟩ := Site.slots_ok hitems
    rw [tagSpecs_of_lookup hu hlookup] at hsame
    have hschema := (hbuilt.checked _ _ schema hlookup).checked
    rw [heq]
    exact bind_eq_ok.2 ⟨(), hcheck, bind_eq_ok.2 ⟨items,
      Site.slots_of_arguments hlookup (hsame.arguments hschema harguments), hown⟩⟩

end Records
end Step

/-! ### Tag records -/

def Parameter.isTag : Parameter → Bool
  | .tag _ _ _ _ => true
  | _ => false

theorem Value.encode_not_isTag {limits : Limits} {v : Value} {p : Parameter}
    (h : v.encode limits = .ok p) : p.isTag = false := by
  rw [v.encode_record limits h]
  cases v <;> rfl

/-- A block with one tag record for each tag of the schema, in their order. -/
structure CodeBlock.Tagged (u : BlockUse) (schema : ActionSchema) (b : CodeBlock) : Prop where
  block : b.block = u.block
  tags : ∃ option : TagSpec → String,
    (b.items.map (·.item)).filter (·.isTag) =
      schema.tags.map (fun tag => .tag (option tag) tag.name u.action u.block) ∧
    ∀ tag ∈ schema.tags, option tag ∈ tag.options ∧ Chosen u.choices tag (option tag)

theorem Placed.filter_isTag {limits : Limits} {slot : Nat} {values : List Value}
    {slots : List Slot} (h : Placed limits slot values slots) :
    (slots.map (·.item)).filter (·.isTag) = [] := by
  rw [List.filter_eq_nil_iff, List.forall_mem_map]
  intro s hs
  obtain ⟨v, _, hv⟩ := h.written s hs
  simp [Value.encode_not_isTag hv]

theorem tagSlots_items (site : Site) (choices : TagChoices) (tags : List TagSpec)
    (slot : Nat) :
    (tagSlots site choices slot tags).map (·.item) =
      tags.map fun tag => .tag (chosenOption choices tag) tag.name site.action site.block := by
  induction tags generalizing slot with
  | nil => rfl
  | cons tag rest ih => rw [tagSlots, List.map_cons, List.map_cons, ih]

theorem arguments_tags {site : Site} {limits : Limits} {schema : ActionSchema}
    {values : List Value} {choices : TagChoices} {items : List Slot}
    (h : arguments site limits schema values choices = .ok items) :
    (items.map (·.item)).filter (·.isTag) = schema.tags.map
      fun tag => .tag (chosenOption choices tag) tag.name site.action site.block := by
  obtain ⟨params, hparams, rfl⟩ := arguments_ok h
  obtain ⟨hplaced, _⟩ := placeParams_placed _ hparams (Nat.zero_le _)
  rw [List.map_append, List.filter_append, hplaced.filter_isTag, List.nil_append, tagSlots_items,
    List.filter_eq_self, List.forall_mem_map]
  intro tag _
  rfl

theorem Chosen.mem_options {schema : ActionSchema} {choices : TagChoices} {tag : TagSpec}
    {option : String} (h : Chosen choices tag option) (hcheck : schema.check = .ok ())
    (htag : tag ∈ schema.tags)
    (hchoices : ∀ choice ∈ choices, ∃ tag ∈ schema.tags,
      tag.name = choice.1 ∧ choice.2 ∈ tag.options) : option ∈ tag.options := by
  obtain h | ⟨rfl, _⟩ := h
  · obtain ⟨other, hother, hname, hoption⟩ := hchoices _ h
    obtain rfl := ActionSchema.tag_unique hcheck hother htag hname
    exact hoption
  · exact ActionSchema.check_defaults hcheck tag htag

/-- What a step with arguments emits: one block, which holds its tags. -/
def Step.TagsListed (table : SchemaTable) (step : Step) (own : List Record) : Prop :=
  ∀ u, step.use? = some u → ∃ schema b brackets,
    table.lookup u.block u.action = some schema ∧ own = .block b :: brackets ∧
      (∀ other, .block other ∉ brackets) ∧ b.Tagged u schema

section Emission
variable {table : SchemaTable} {limits : Limits} {steps others : List Step} {records : List Record}

theorem Step.records_tagsListed {step : Step} (hbuilt : table.Built) {own : List Record}
    (h : step.records table limits = .ok own) : step.TagsListed table own := by
  intro u hu
  obtain ⟨build, brackets, hbuild, hbrackets, heq⟩ := records_withTags hu table limits
  rw [← step.withTags_tags, heq, ← use?_choices hu] at h
  obtain ⟨_, _, h⟩ := bind_eq_ok.1 h
  obtain ⟨items, hitems, h⟩ := bind_eq_ok.1 h
  cases h
  obtain ⟨schema, hlookup, harguments⟩ := Site.slots_ok hitems
  have hcheck := (hbuilt.checked _ _ schema hlookup).checked
  have hmatches := ((arguments_eq_ok_iff hcheck).1 harguments).1
  refine ⟨schema, _, brackets, hlookup, rfl, hbrackets, (hbuild items).2,
    chosenOption u.choices, ?_, fun tag htag => ?_⟩
  · rw [(hbuild items).1, arguments_tags harguments]
  · have hchosen : Chosen u.choices tag (chosenOption u.choices tag) :=
      chosenOption_cases u.choices tag
    exact ⟨hchosen.mem_options hcheck htag hmatches.tags, hchosen⟩

theorem recordsOf_parts (h : recordsOf table limits steps = .ok records) :
    ∃ parts : List (List Record), records = parts.flatten ∧
      List.Forall₂ (fun step own => step.records table limits = .ok own) steps parts := by
  induction steps generalizing records with
  | nil =>
    cases h
    exact ⟨[], rfl, .nil⟩
  | cons step rest ih =>
    obtain ⟨own, _, hown, hrest, rfl⟩ := recordsOf_cons h
    obtain ⟨parts, rfl, hparts⟩ := ih hrest
    exact ⟨own :: parts, rfl, .cons hown hparts⟩

theorem recordsOf_retagged (hbuilt : table.Built)
    (hothers : List.Forall₂ (Step.Retagged table) steps others)
    (h : recordsOf table limits steps = .ok records) :
    recordsOf table limits others = .ok records := by
  induction hothers generalizing records with
  | nil => exact h
  | cons hstep _ ih =>
    obtain ⟨own, rest, hown, hrest, rfl⟩ := recordsOf_cons h
    rw [recordsOf, hstep.records hbuilt hown, ih hrest]
    rfl

theorem HeaderState.check_withTags (s : HeaderState) (step : Step) (choices : TagChoices) :
    s.check (step.withTags choices) = s.check step ∧
      s.next (step.withTags choices) = s.next step := by
  cases step with
  | opened index h => cases h <;> exact ⟨rfl, rfl⟩
  | _ => exact ⟨rfl, rfl⟩

theorem checkHeaders_retagged (hothers : List.Forall₂ (Step.Retagged table) steps others)
    (s : HeaderState) : checkHeaders s others = checkHeaders s steps := by
  induction hothers generalizing s with
  | nil => rfl
  | @cons step _ _ _ hstep _ ih =>
    obtain ⟨choices, _, rfl⟩ := hstep
    obtain ⟨hcheck, hnext⟩ := s.check_withTags step choices
    rw [checkHeaders, checkHeaders, hcheck, hnext, ih]

end Emission

/-- Giving the tags of any steps in another order, naming defaults or leaving them out changes
nothing in what is emitted. The records are those of the steps in order, and every block with
arguments holds each tag of its schema once, with an option that the schema has for it. -/
theorem emit_tags {table : SchemaTable} (hbuilt : table.Built) {limits : Limits}
    {steps : List Step} {records : List Record} (h : emit table limits steps = .ok records) :
    (∀ others, List.Forall₂ (Step.Retagged table) steps others →
      emit table limits others = .ok records) ∧
    ∃ parts : List (List Record), records = parts.flatten ∧
      List.Forall₂ (fun step own => step.records table limits = .ok own ∧
        step.TagsListed table own) steps parts := by
  obtain ⟨_, hheaders, h⟩ := bind_eq_ok.1 h
  constructor
  · intro others hothers
    rw [← checkHeaders_retagged hothers] at hheaders
    exact bind_eq_ok.2 ⟨_, hheaders, recordsOf_retagged hbuilt hothers h⟩
  · obtain ⟨parts, hrecords, hparts⟩ := recordsOf_parts h
    exact ⟨parts, hrecords, hparts.imp fun step own hown =>
      ⟨hown, Step.records_tagsListed hbuilt hown⟩⟩

def sendMessage : ActionSchema :=
  { block := "player_action", name := "SendMessage", params := [{ kind := .text }]
    tags := [⟨"Alignment Mode", ["Regular", "Centered"], "Regular"⟩,
      ⟨"Text Value Merging", ["Add spaces", "No spaces"], "Add spaces"⟩] }

def isHolding : ActionSchema :=
  { block := "if_player", name := "IsHolding"
    tags := [⟨"Hand Slot", ["Either hand", "Main hand"], "Either hand"⟩] }

def mergedTable : SchemaTable :=
  .merge (SchemaTable.empty.insert sendMessage).2 (SchemaTable.empty.insert isHolding).2

/-- A message to players that hold something. -/
def greeting (hand style : TagChoices) : List Step :=
  [.opened 0 (.ifThen { category := .player, action := "IsHolding", tags := hand }),
    .action 1
      { category := .playerAction, action := "SendMessage", params := [.text "Hi"], tags := style },
    .closed 2 .ifThen]

def fullGreeting : List Step :=
  greeting [("Hand Slot", "Either hand")]
    [("Text Value Merging", "No spaces"), ("Alignment Mode", "Centered")]

/-- A default is left out of one step and the tags of another change places. -/
theorem emit_tags_greeting : ∃ records, emit mergedTable {} fullGreeting = .ok records ∧
    emit mergedTable {} (greeting []
      [("Alignment Mode", "Centered"), ("Text Value Merging", "No spaces")]) = .ok records ∧
    ∃ parts : List (List Record), records = parts.flatten ∧
      List.Forall₂ (Step.TagsListed mergedTable) fullGreeting parts := by
  have hbuilt : mergedTable.Built :=
    .merge (.insert .empty sendMessage) (.insert .empty isHolding)
  have hemit : ∃ records, emit mergedTable {} fullGreeting = .ok records := ⟨_, rfl⟩
  obtain ⟨records, hemit⟩ := hemit
  obtain ⟨hretagged, parts, hrecords, hparts⟩ := emit_tags hbuilt hemit
  refine ⟨records, hemit, hretagged _ (.cons ?_ (.cons ?_ (.cons ?_ .nil))), parts, hrecords,
    hparts.imp fun _ _ => And.right⟩
  · have hsame : SameChoices isHolding.tags [("Hand Slot", "Either hand")] [] :=
      .leftOut List.mem_cons_self
    exact ⟨[], hsame, rfl⟩
  · exact ⟨_, .perm (.swap _ _ _), rfl⟩
  · exact ⟨[], .perm (.refl _), rfl⟩

end BlockTemplate
