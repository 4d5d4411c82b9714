import BlockTemplate.Proofs.Emission.Placement

/-! Which values and tags a schema takes. In a checked schema a plural parameter comes last, so the
first values have a parameter each and that one has the others. -/
namespace BlockTemplate

/-- The values that one stands for where a parameter takes many. -/
def ParamSpec.elements (spec : ParamSpec) : Value → List Value
  | .list items => if spec.kind = .list then [.list items] else items
  | v => [v]

theorem spread_eq_flatMap (spec : ParamSpec) (values : List Value) :
    spread spec values = values.flatMap spec.elements := by
  induction values with
  | nil => rfl
  | cons v rest ih =>
    rw [List.flatMap_cons, ← ih]
    cases v with
    | list items => by_cases h : spec.kind = .list <;> simp [spread, ParamSpec.elements, h]
    | _ => rfl

section Taking

/-- The values after the first ones, taken apart for a plural parameter. -/
def remaining (plural : Option ParamSpec) (values : List Value) : List Value :=
  match plural with
  | none => values
  | some spec => values.flatMap spec.elements

/-- The values that get a slot if each single parameter takes one and the plural one the rest. -/
def taken (singles : List ParamSpec) (plural : Option ParamSpec) (values : List Value) :
    List Value :=
  values.take singles.length ++ remaining plural (values.drop singles.length)

/-- Values of the right kinds for single parameters and a last plural one. -/
structure Takes (singles : List ParamSpec) (plural : Option ParamSpec) (values : List Value) :
    Prop where
  first : ∀ (i : Nat) (spec : ParamSpec) (v : Value), singles[i]? = some spec →
    values[i]? = some v → spec.kind.accepts v = true
  absent : ∀ (i : Nat) (spec : ParamSpec), singles[i]? = some spec → values.length ≤ i →
    spec.optional = true
  noMore : plural = none → values.length ≤ singles.length
  rest : ∀ spec, plural = some spec →
    (∀ v ∈ remaining plural (values.drop singles.length), spec.kind.accepts v = true) ∧
      (remaining plural (values.drop singles.length) = [] → spec.optional = true)

variable {singles : List ParamSpec} {plural : Option ParamSpec} {spec : ParamSpec} {v : Value}
  {values : List Value}

theorem taken_cons : taken (spec :: singles) plural (v :: values) =
    v :: taken singles plural values := rfl

theorem taken_nil : taken singles plural [] = [] := by
  cases plural <;> simp [taken, remaining]

theorem takes_cons_cons : Takes (spec :: singles) plural (v :: values) ↔
    spec.kind.accepts v = true ∧ Takes singles plural values := by
  constructor
  · intro h
    refine ⟨h.first 0 spec v rfl rfl, fun i => h.first (i + 1), fun i other hi hlen => ?_,
      fun hnone => ?_, h.rest⟩
    · exact h.absent (i + 1) other hi (Nat.succ_le_succ hlen)
    · exact Nat.le_of_succ_le_succ (h.noMore hnone)
  · rintro ⟨hfirst, h⟩
    refine ⟨fun i other w hi hw => ?_, fun i other hi hlen => ?_, fun hnone => ?_, h.rest⟩
    · cases i with
      | zero =>
        cases hi
        cases hw
        exact hfirst
      | succ i => exact h.first i other w hi hw
    · cases i with
      | zero => exact absurd hlen (Nat.not_succ_le_zero _)
      | succ i => exact h.absent i other hi (Nat.le_of_succ_le_succ hlen)
    · exact Nat.succ_le_succ (h.noMore hnone)

theorem takes_cons_nil : Takes (spec :: singles) plural [] ↔
    spec.optional = true ∧ Takes singles plural [] := by
  constructor
  · intro h
    refine ⟨h.absent 0 spec rfl (Nat.le_refl _), fun i other w _ hw => by simp at hw,
      fun i other hi _ => h.absent (i + 1) other hi (Nat.zero_le _), fun _ => Nat.zero_le _, ?_⟩
    simpa only [List.drop_nil] using h.rest
  · rintro ⟨hoptional, h⟩
    refine ⟨fun i other w _ hw => by simp at hw, fun i other hi _ => ?_, fun _ => Nat.zero_le _, ?_⟩
    · cases i with
      | zero =>
        cases hi
        exact hoptional
      | succ i => exact h.absent i other hi (Nat.zero_le _)
    · simpa only [List.drop_nil] using h.rest

theorem takes_nil_none : Takes [] none values ↔ values = [] := by
  constructor
  · intro h
    exact List.eq_nil_of_length_eq_zero (Nat.le_zero.1 (h.noMore rfl))
  · rintro rfl
    exact ⟨by simp, by simp, by simp, by simp⟩

theorem takes_nil_some : Takes [] (some spec) values ↔
    (∀ v ∈ values.flatMap spec.elements, spec.kind.accepts v = true) ∧
      (values.flatMap spec.elements = [] → spec.optional = true) := by
  constructor
  · intro h
    exact h.rest spec rfl
  · intro h
    refine ⟨by simp, by simp, by simp, fun other hother => ?_⟩
    cases hother
    exact h

end Taking

theorem Placed.nil_iff {limits : Limits} {slot : Nat} {slots : List Slot} :
    Placed limits slot [] slots ↔ slots = [] := by
  constructor
  · intro h
    cases h
    rfl
  · rintro rfl
    exact .nil

theorem Placed.cons_iff {limits : Limits} {slot : Nat} {v : Value} {values : List Value}
    {slots : List Slot} : Placed limits slot (v :: values) slots ↔
      ∃ p others, v.encode limits = .ok p ∧ Placed limits (slot + 1) values others ∧
        slots = ⟨p, slot⟩ :: others := by
  constructor
  · intro h
    cases h with
    | cons first rest => exact ⟨_, _, first, rest, rfl⟩
  · rintro ⟨p, others, first, rest, rfl⟩
    exact .cons first rest

/-- Values can be put into slots if each can be written. -/
theorem Placed.exists_iff {limits : Limits} (values : List Value) (slot : Nat) :
    (∃ slots, Placed limits slot values slots) ↔
      ∀ v ∈ values, ∃ p, v.encode limits = .ok p := by
  induction values generalizing slot with
  | nil => simp [Placed.nil_iff]
  | cons v rest ih =>
    rw [List.forall_mem_cons, ← ih (slot + 1)]
    constructor
    · rintro ⟨_, h⟩
      obtain ⟨p, others, hp, hothers, _⟩ := Placed.cons_iff.1 h
      exact ⟨⟨p, hp⟩, others, hothers⟩
    · rintro ⟨⟨p, hp⟩, others, hothers⟩
      exact ⟨_, .cons hp hothers⟩

section Placing
variable {limits : Limits} {room : Nat} {spec : ParamSpec} {position slot : Nat}

theorem place_eq_ok_iff {v : Value} {s : Slot} :
    place limits room spec position slot v = .ok s ↔
      spec.kind.accepts v = true ∧ slot < room ∧
        ∃ p, v.encode limits = .ok p ∧ s = ⟨p, slot⟩ := by
  constructor
  · intro h
    refine ⟨?_, place_ok h⟩
    rw [place] at h
    split at h
    · cases h
    · simp_all
  · rintro ⟨haccepts, hroom, p, hp, rfl⟩
    simp [place, haccepts, hp, Nat.not_le_of_lt hroom]

/-- One value before others that are known to fit if they are fine. -/
theorem place_cons_iff {v : Value} {values : List Value} {tail : List Slot → Prop} {fine : Prop}
    {slots : List Slot}
    (htail : slot < room → ∀ others, tail others ↔
      fine ∧ slot + 1 + values.length ≤ room ∧ Placed limits (slot + 1) values others) :
    (∃ first others, place limits room spec position slot v = .ok first ∧ tail others ∧
      slots = first :: others) ↔
      (spec.kind.accepts v = true ∧ fine) ∧ slot + (v :: values).length ≤ room ∧
        Placed limits slot (v :: values) slots := by
  rw [List.length_cons, Placed.cons_iff]
  constructor
  · rintro ⟨first, others, hfirst, hothers, rfl⟩
    obtain ⟨haccepts, hroom, p, hp, rfl⟩ := place_eq_ok_iff.1 hfirst
    obtain ⟨hfine, hend, hplaced⟩ := (htail hroom others).1 hothers
    exact ⟨⟨haccepts, hfine⟩, by omega, p, others, hp, hplaced, rfl⟩
  · rintro ⟨⟨haccepts, hfine⟩, hend, p, others, hp, hplaced, rfl⟩
    have hroom : slot < room := by omega
    exact ⟨_, others, place_eq_ok_iff.2 ⟨haccepts, hroom, p, hp, rfl⟩,
      (htail hroom others).2 ⟨hfine, by omega, hplaced⟩, rfl⟩

theorem placeAll_eq_ok_iff (values : List Value) {slots : List Slot} (hslot : slot ≤ room) :
    placeAll limits room spec position slot values = .ok slots ↔
      (∀ v ∈ values, spec.kind.accepts v = true) ∧ slot + values.length ≤ room ∧
        Placed limits slot values slots := by
  induction values generalizing slot slots with
  | nil =>
    rw [placeAll, Placed.nil_iff]
    simp only [List.length_nil, Nat.add_zero, Except.ok.injEq]
    grind
  | cons v rest ih =>
    rw [List.forall_mem_cons, placeAll, bind_cons_eq_ok]
    exact place_cons_iff fun hroom _ => ih hroom

theorem placeParams_single_cons (h : spec.plural = false) {specs : List ParamSpec} {v : Value}
    {values : List Value} {slots : List Slot} :
    placeParams limits room position slot (spec :: specs) (v :: values) = .ok slots ↔
      ∃ first others, place limits room spec position slot v = .ok first ∧
        placeParams limits room (position + 1) (slot + 1) specs values = .ok others ∧
        slots = first :: others := by
  simp only [placeParams, h, Bool.false_eq_true, if_false, bind_cons_eq_ok]

theorem placeParams_single_nil (h : spec.plural = false) {specs : List ParamSpec}
    {slots : List Slot} :
    placeParams limits room position slot (spec :: specs) [] = .ok slots ↔
      spec.optional = true ∧
        placeParams limits room (position + 1) slot specs [] = .ok slots := by
  by_cases hoptional : spec.optional = true <;> simp [placeParams, h, hoptional]

theorem placeParams_plural (h : spec.plural = true) {values : List Value} {slots : List Slot} :
    placeParams limits room position slot [spec] values = .ok slots ↔
      placeAll limits room spec position slot (spread spec values) = .ok slots ∧
        (slots = [] → spec.optional = true) := by
  simp only [placeParams, h, if_true, bind_eq_ok]
  constructor
  · rintro ⟨given, hgiven, hslots⟩
    split at hslots
    · cases hslots
    · next hmissing =>
      obtain ⟨others, hothers, hslots⟩ := bind_eq_ok.1 hslots
      cases hothers
      cases hslots
      simp_all
  · rintro ⟨hgiven, hoptional⟩
    refine ⟨slots, hgiven, ?_⟩
    split
    · simp_all
    · simp [bind, Except.bind, pure, Except.pure]

/-- With no single parameter left the values are those of the plural one, if there is one. -/
theorem placeParams_toList_iff {plural : Option ParamSpec}
    (hplural : ∀ spec, plural = some spec → spec.plural = true) {values : List Value}
    {slots : List Slot} (hslot : slot ≤ room) :
    placeParams limits room position slot plural.toList values = .ok slots ↔
      Takes [] plural values ∧ slot + (taken [] plural values).length ≤ room ∧
        Placed limits slot (taken [] plural values) slots := by
  cases plural with
  | none =>
    rw [takes_nil_none, Option.toList_none]
    cases values with
    | nil =>
      rw [placeParams, taken_nil, Placed.nil_iff]
      grind
    | cons v rest => simp [placeParams]
  | some spec =>
    have htaken : taken [] (some spec) values = values.flatMap spec.elements := rfl
    rw [Option.toList_some, placeParams_plural (hplural spec rfl), spread_eq_flatMap,
      placeAll_eq_ok_iff _ hslot, takes_nil_some, htaken]
    -- No slot is used exactly if there is no value.
    have hnone (h : Placed limits slot (values.flatMap spec.elements) slots) :
        slots = [] ↔ values.flatMap spec.elements = [] := by
      rw [← List.length_eq_zero_iff, h.length, List.length_eq_zero_iff]
    grind

theorem placeParams_eq_ok_iff (singles : List ParamSpec) {plural : Option ParamSpec}
    (hsingles : ∀ spec ∈ singles, spec.plural = false)
    (hplural : ∀ spec, plural = some spec → spec.plural = true) {values : List Value}
    {slots : List Slot} (hslot : slot ≤ room) :
    placeParams limits room position slot (singles ++ plural.toList) values = .ok slots ↔
      Takes singles plural values ∧ slot + (taken singles plural values).length ≤ room ∧
        Placed limits slot (taken singles plural values) slots := by
  induction singles generalizing position slot values slots with
  | nil => exact placeParams_toList_iff hplural hslot
  | cons spec singles ih =>
    obtain ⟨hspec, hsingles⟩ := List.forall_mem_cons.1 hsingles
    rw [List.cons_append]
    cases values with
    | nil =>
      rw [placeParams_single_nil hspec, ih hsingles hslot, takes_cons_nil, taken_nil, taken_nil,
        and_assoc]
    | cons v rest =>
      rw [placeParams_single_cons hspec, takes_cons_cons, taken_cons]
      exact place_cons_iff fun hroom _ => ih hsingles hroom

end Placing

section Tags

theorem checkChoices_eq_ok_iff (schema : ActionSchema) (choices : TagChoices) :
    checkChoices schema choices = .ok () ↔
      ∀ choice ∈ choices, ∃ tag, schema.tag? choice.1 = some tag ∧ choice.2 ∈ tag.options := by
  induction choices with
  | nil => simp [checkChoices]
  | cons choice rest ih =>
    rw [List.forall_mem_cons, ← ih, checkChoices]
    cases htag : schema.tag? choice.1 with
    | none => simp
    | some tag => by_cases hoption : choice.2 ∈ tag.options <;> simp [hoption]

theorem checkRepeats_eq_ok_iff (choices : TagChoices) (seen : List String) :
    checkRepeats seen choices = .ok () ↔
      (choices.map (·.1)).Nodup ∧ ∀ choice ∈ choices, choice.1 ∉ seen := by
  induction choices generalizing seen with
  | nil => simp [checkRepeats]
  | cons choice rest ih =>
    rw [checkRepeats, List.map_cons, List.nodup_cons, List.forall_mem_cons]
    by_cases hseen : choice.1 ∈ seen
    · simp [hseen]
    · simp only [List.contains_iff_mem, hseen, if_false, ih]
      grind

theorem checkTags_nodup (tags : List TagSpec) {seen : List String}
    (h : ActionSchema.checkTags seen tags = .ok ()) :
    (tags.map (·.name)).Nodup ∧ ∀ tag ∈ tags, tag.name ∉ seen := by
  induction tags generalizing seen with
  | nil => simp
  | cons tag rest ih =>
    rw [ActionSchema.checkTags] at h
    split at h
    · cases h
    · next hseen =>
      split at h
      · cases h
      · have := ih h
        grind

theorem find?_name_eq_some_iff {tags : List TagSpec} (hnodup : (tags.map (·.name)).Nodup)
    (name : String) (tag : TagSpec) :
    tags.find? (·.name == name) = some tag ↔ tag ∈ tags ∧ tag.name = name := by
  induction tags with
  | nil => simp
  | cons first rest ih => grind

theorem tagSlots_eq_zipIdx (site : Site) (choices : TagChoices) (tags : List TagSpec)
    (slot : Nat) :
    tagSlots site choices slot tags = (tags.zipIdx slot).map fun t =>
      ⟨.tag (chosenOption choices t.1) t.1.name site.action site.block, t.2⟩ := by
  induction tags generalizing slot with
  | nil => rfl
  | cons tag rest ih => rw [tagSlots, ih, List.zipIdx_cons, List.map_cons]

theorem chosenOption_cases (choices : TagChoices) (tag : TagSpec) :
    (tag.name, chosenOption choices tag) ∈ choices ∨
      chosenOption choices tag = tag.default ∧ ∀ choice ∈ choices, choice.1 ≠ tag.name := by
  rw [chosenOption]
  split
  · next name option hfound =>
    have hname : name = tag.name := by simpa using List.find?_some hfound
    subst hname
    exact .inl (List.mem_of_find?_eq_some hfound)
  · next hnone => exact .inr ⟨rfl, by simpa using hnone⟩

end Tags

namespace ActionSchema

/-- The parameters that take one value each. -/
def singles (schema : ActionSchema) : List ParamSpec := schema.params.filter (!·.plural)

def plural? (schema : ActionSchema) : Option ParamSpec := schema.params.find? (·.plural)

theorem checkParams_split (specs : List ParamSpec) {position : Nat} {seen : Bool}
    (h : checkParams position seen specs = .ok ()) :
    specs = specs.filter (!·.plural) ++ (specs.find? (·.plural)).toList := by
  induction specs generalizing position seen with
  | nil => rfl
  | cons spec rest ih =>
    rw [checkParams] at h
    split at h
    · cases h
    · next hlast =>
      split at h
      · cases h
      · cases hplural : spec.plural with
        | true =>
          have hrest : rest = [] := by simpa [hplural] using hlast
          simp [hrest, hplural]
        | false => simpa [hplural] using ih h

/-- Values and tags that the action takes. -/
structure Matches (limits : Limits) (schema : ActionSchema) (values : List Value)
    (choices : TagChoices) : Prop where
  params : Takes schema.singles schema.plural? values
  room : (taken schema.singles schema.plural? values).length ≤
    limits.maxParameters - schema.tags.length
  written : ∀ v ∈ taken schema.singles schema.plural? values, ∃ p, v.encode limits = .ok p
  tags : ∀ choice ∈ choices, ∃ tag ∈ schema.tags, tag.name = choice.1 ∧ choice.2 ∈ tag.options
  once : (choices.map (·.1)).Nodup

variable {schema : ActionSchema}

theorem check_params (h : schema.check = .ok ()) :
    schema.params = schema.singles ++ schema.plural?.toList := by
  obtain ⟨_, hparams, _⟩ := bind_eq_ok.1 h
  exact checkParams_split _ hparams

theorem tag?_eq_some_iff (h : schema.check = .ok ()) (name : String) (tag : TagSpec) :
    schema.tag? name = some tag ↔ tag ∈ schema.tags ∧ tag.name = name := by
  obtain ⟨_, _, htags⟩ := bind_eq_ok.1 h
  exact find?_name_eq_some_iff (checkTags_nodup _ htags).1 name tag

end ActionSchema

section Arguments
variable {site : Site} {limits : Limits} {schema : ActionSchema} {values : List Value}
  {choices : TagChoices}

theorem checkChoices_iff_options (h : schema.check = .ok ()) :
    checkChoices schema choices = .ok () ↔
      ∀ choice ∈ choices, ∃ tag ∈ schema.tags, tag.name = choice.1 ∧ choice.2 ∈ tag.options := by
  simp only [checkChoices_eq_ok_iff, ActionSchema.tag?_eq_some_iff h, and_assoc]

theorem placeParams_iff_takes (h : schema.check = .ok ()) {room : Nat} {slots : List Slot} :
    placeParams limits room 0 0 schema.params values = .ok slots ↔
      Takes schema.singles schema.plural? values ∧
        (taken schema.singles schema.plural? values).length ≤ room ∧
        Placed limits 0 (taken schema.singles schema.plural? values) slots := by
  have hsingles : ∀ spec ∈ schema.singles, spec.plural = false := by
    simp [ActionSchema.singles]
  have hplural : ∀ spec, schema.plural? = some spec → spec.plural = true :=
    fun spec hspec => List.find?_some hspec
  rw [ActionSchema.check_params h, placeParams_eq_ok_iff _ hsingles hplural (Nat.zero_le _),
    Nat.zero_add]

theorem arguments_eq_ok_iff (h : schema.check = .ok ()) {items : List Slot} :
    arguments site limits schema values choices = .ok items ↔
      schema.Matches limits values choices ∧
        ∃ params, Placed limits 0 (taken schema.singles schema.plural? values) params ∧
          items = params ++ tagSlots site choices (limits.maxParameters - schema.tags.length)
            schema.tags := by
  constructor
  · intro hok
    obtain ⟨params, hparams, hok⟩ := bind_eq_ok.1 hok
    obtain ⟨_, hchoices, hok⟩ := bind_eq_ok.1 hok
    obtain ⟨_, hrepeats, hok⟩ := bind_eq_ok.1 hok
    cases hok
    obtain ⟨htakes, hroom, hplaced⟩ := (placeParams_iff_takes h).1 hparams
    refine ⟨⟨htakes, hroom, ?_, ?_, ?_⟩, params, hplaced, rfl⟩
    · exact (Placed.exists_iff _ 0).1 ⟨params, hplaced⟩
    · exact (checkChoices_iff_options h).1 hchoices
    · exact ((checkRepeats_eq_ok_iff choices []).1 hrepeats).1
  · rintro ⟨hmatches, params, hplaced, rfl⟩
    have hparams := (placeParams_iff_takes h).2 ⟨hmatches.params, hmatches.room, hplaced⟩
    have hchoices := (checkChoices_iff_options h).2 hmatches.tags
    have hrepeats := (checkRepeats_eq_ok_iff choices []).2 ⟨hmatches.once, by simp⟩
    exact bind_eq_ok.2 ⟨params, hparams, bind_eq_ok.2 ⟨(), hchoices,
      bind_eq_ok.2 ⟨(), hrepeats, rfl⟩⟩⟩

/-- A checked schema takes exactly the values and tags that match it. They fill slots in order, and
each tag has the option chosen for it or else its default. -/
theorem arguments_iff_matches (site : Site) (h : schema.check = .ok ()) :
    ((∃ items, arguments site limits schema values choices = .ok items) ↔
      schema.Matches limits values choices) ∧
    ∀ items, arguments site limits schema values choices = .ok items →
      ∃ params, Placed limits 0 (taken schema.singles schema.plural? values) params ∧
        items = params ++ (schema.tags.zipIdx (limits.maxParameters - schema.tags.length)).map
          (fun t => ⟨.tag (chosenOption choices t.1) t.1.name site.action site.block, t.2⟩) ∧
        ∀ tag ∈ schema.tags, (tag.name, chosenOption choices tag) ∈ choices ∨
          chosenOption choices tag = tag.default ∧ ∀ choice ∈ choices, choice.1 ≠ tag.name := by
  refine ⟨⟨?_, fun hmatches => ?_⟩, fun items hok => ?_⟩
  · rintro ⟨items, hok⟩
    exact ((arguments_eq_ok_iff h).1 hok).1
  · obtain ⟨params, hplaced⟩ := (Placed.exists_iff _ 0).2 hmatches.written
    exact ⟨_, (arguments_eq_ok_iff h).2 ⟨hmatches, params, hplaced, rfl⟩⟩
  · obtain ⟨_, params, hplaced, hitems⟩ := (arguments_eq_ok_iff h).1 hok
    rw [tagSlots_eq_zipIdx] at hitems
    exact ⟨params, hplaced, hitems, fun tag _ => chosenOption_cases choices tag⟩

end Arguments

/-- An action with a text, some values of any kind and a tag. -/
def announce : ActionSchema :=
  { block := "player_action", name := "Announce"
    params := [{ kind := .text }, { kind := .any, plural := true }]
    tags := [⟨"Colour", ["Red", "Blue"], "Red"⟩] }

def announceSite : Site := ⟨0, "player_action", "Announce"⟩

/-- A list within a list stays whole and just fits, and an empty list is no value at all. -/
theorem arguments_iff_matches_announce :
    announce.check = .ok () ∧
    announce.Matches { maxParameters := 4 }
      [.text "a", .list [.text "b", .list [.text "c"]]] [("Colour", "Blue")] ∧
    (∃ params, Placed { maxParameters := 4 } 0 [.text "a", .text "b", .list [.text "c"]] params ∧
      arguments announceSite { maxParameters := 4 } announce
        [.text "a", .list [.text "b", .list [.text "c"]]] [("Colour", "Blue")] =
        .ok (params ++ [⟨.tag "Blue" "Colour" "Announce" "player_action", 3⟩])) ∧
    ¬ announce.Matches { maxParameters := 4 } [.text "a", .list []] [] := by
  have hcheck : announce.check = .ok () := rfl
  have hok : ∃ items, arguments announceSite { maxParameters := 4 } announce
      [.text "a", .list [.text "b", .list [.text "c"]]] [("Colour", "Blue")] = .ok items :=
    ⟨_, rfl⟩
  refine ⟨hcheck, (arguments_iff_matches announceSite hcheck).1.1 hok, ?_, fun hmatches => ?_⟩
  · obtain ⟨items, hitems⟩ := hok
    obtain ⟨params, hplaced, heq, _⟩ := (arguments_iff_matches announceSite hcheck).2 items hitems
    rw [heq] at hitems
    exact ⟨params, hplaced, hitems⟩
  · obtain ⟨items, hitems⟩ := (arguments_iff_matches announceSite hcheck).1.2 hmatches
    cases hitems

end BlockTemplate
