import BlockTemplate.Emission.Basic
import BlockTemplate.Proofs.Outcome

/-! What the slots of a block hold: the values in order from the first slot on, and the tags from
where the room for values ends. Nothing but the number of tags can put one beyond the limit. -/
namespace BlockTemplate

/-- The values that take a slot each. Lists for a plural parameter are taken apart; values that are
left over count as they are. -/
def slotValues : List ParamSpec → List Value → List Value
  | [], values => values
  | spec :: specs, values =>
    if spec.plural then spread spec values ++ slotValues specs []
    else
      match values with
      | [] => slotValues specs []
      | v :: rest => v :: slotValues specs rest

@[simp] theorem slotValues_nil (specs : List ParamSpec) : slotValues specs [] = [] := by
  induction specs with
  | nil => rfl
  | cons spec specs ih => by_cases h : spec.plural = true <;> simp [slotValues, h, ih, spread]

theorem slotValues_plural {spec : ParamSpec} (h : spec.plural = true) (specs : List ParamSpec)
    (values : List Value) : slotValues (spec :: specs) values = spread spec values := by
  simp [slotValues, h]

theorem slotValues_single {spec : ParamSpec} (h : spec.plural = false) (specs : List ParamSpec)
    (v : Value) (rest : List Value) :
    slotValues (spec :: specs) (v :: rest) = v :: slotValues specs rest := by
  simp [slotValues, h]

/-- The slots from one on hold the values in order. -/
inductive Placed (limits : Limits) : Nat → List Value → List Slot → Prop
  | nil {slot : Nat} : Placed limits slot [] []
  | cons {slot : Nat} {v : Value} {values : List Value} {p : Parameter} {slots : List Slot}
      (first : v.encode limits = .ok p) (rest : Placed limits (slot + 1) values slots) :
      Placed limits slot (v :: values) (⟨p, slot⟩ :: slots)

namespace Placed
variable {limits : Limits} {slot : Nat} {values : List Value} {slots : List Slot}

theorem numbers (h : Placed limits slot values slots) :
    slots.map (·.slot) = List.range' slot values.length := by
  induction h with
  | nil => rfl
  | cons _ _ ih => rw [List.map_cons, ih, List.length_cons, List.range'_succ]

theorem length (h : Placed limits slot values slots) : slots.length = values.length := by
  simpa using congrArg List.length h.numbers

theorem written (h : Placed limits slot values slots) :
    ∀ s ∈ slots, ∃ v ∈ values, v.encode limits = .ok s.item := by
  induction h with
  | nil => simp
  | cons first _ ih =>
    refine List.forall_mem_cons.2 ⟨⟨_, List.mem_cons_self, first⟩, fun s hs => ?_⟩
    obtain ⟨v, hv, hencode⟩ := ih s hs
    exact ⟨v, List.mem_cons_of_mem _ hv, hencode⟩

end Placed

section Placing
variable {limits : Limits} {room : Nat}

theorem place_ok {spec : ParamSpec} {position slot : Nat} {v : Value} {s : Slot}
    (h : place limits room spec position slot v = .ok s) :
    slot < room ∧ ∃ p, v.encode limits = .ok p ∧ s = ⟨p, slot⟩ := by
  rw [place] at h
  split at h
  · cases h
  · split at h
    · cases h
    · split at h
      · cases h
        exact ⟨Nat.lt_of_not_le ‹_›, _, ‹_›, rfl⟩
      · cases h

theorem placeAll_placed {spec : ParamSpec} {position : Nat} (values : List Value) {slot : Nat}
    {slots : List Slot} (h : placeAll limits room spec position slot values = .ok slots)
    (hslot : slot ≤ room) : Placed limits slot values slots ∧ slot + values.length ≤ room := by
  induction values generalizing slot slots with
  | nil =>
    cases h
    exact ⟨.nil, hslot⟩
  | cons v rest ih =>
    obtain ⟨first, hfirst, h⟩ := bind_eq_ok.1 h
    obtain ⟨others, hothers, h⟩ := bind_eq_ok.1 h
    cases h
    obtain ⟨hroom, p, hp, rfl⟩ := place_ok hfirst
    obtain ⟨hplaced, hend⟩ := ih hothers hroom
    rw [List.length_cons]
    exact ⟨.cons hp hplaced, by omega⟩

/-- Parameters fill consecutive slots within their room. -/
theorem placeParams_placed (specs : List ParamSpec) {values : List Value} {position slot : Nat}
    {slots : List Slot} (h : placeParams limits room position slot specs values = .ok slots)
    (hslot : slot ≤ room) :
    Placed limits slot (slotValues specs values) slots ∧
      slot + (slotValues specs values).length ≤ room := by
  induction specs generalizing position slot values slots with
  | nil =>
    cases values with
    | nil =>
      cases h
      exact ⟨.nil, hslot⟩
    | cons v rest => cases h
  | cons spec specs ih =>
    unfold placeParams at h
    split at h
    · next hplural =>
      obtain ⟨given, hgiven, h⟩ := bind_eq_ok.1 h
      split at h
      · cases h
      · obtain ⟨others, hothers, h⟩ := bind_eq_ok.1 h
        cases h
        obtain ⟨hplaced, hend⟩ := placeAll_placed _ hgiven hslot
        -- Nothing is left for the specs after a plural one.
        obtain ⟨hnone, _⟩ := ih hothers (by rw [hplaced.length]; exact hend)
        rw [slotValues_nil] at hnone
        cases hnone
        rw [slotValues_plural hplural, List.append_nil]
        exact ⟨hplaced, hend⟩
    · next hsingle =>
      rw [Bool.not_eq_true] at hsingle
      cases values with
      | nil =>
        simp only [] at h
        split at h
        · simpa using ih h hslot
        · cases h
      | cons v rest =>
        obtain ⟨first, hfirst, h⟩ := bind_eq_ok.1 h
        obtain ⟨others, hothers, h⟩ := bind_eq_ok.1 h
        cases h
        obtain ⟨hroom, p, hp, rfl⟩ := place_ok hfirst
        obtain ⟨hplaced, hend⟩ := ih hothers hroom
        rw [slotValues_single hsingle, List.length_cons]
        exact ⟨.cons hp hplaced, by omega⟩

/-- A value that is fine by itself can only be refused for its kind or for want of a slot. -/
theorem place_fault (room : Nat) (spec : ParamSpec) (position slot : Nat) {v : Value}
    {p : Parameter} (hv : v.encode limits = .ok p) :
    place limits room spec position slot v = .ok ⟨p, slot⟩ ∧ slot < room ∨
      ∃ fault, place limits room spec position slot v = .error (.fault fault) := by
  rw [place]
  split
  · exact .inr ⟨_, rfl⟩
  · split
    · exact .inr ⟨_, rfl⟩
    · rw [hv]
      exact .inl ⟨rfl, Nat.lt_of_not_le ‹_›⟩

theorem placeAll_fault {spec : ParamSpec} {position : Nat} (values : List Value) {slot : Nat}
    (hslot : slot ≤ room) (hfull : room < slot + values.length)
    (hvalues : ∀ v ∈ values, ∃ p, v.encode limits = .ok p) :
    ∃ fault, placeAll limits room spec position slot values = .error (.fault fault) := by
  induction values generalizing slot with
  | nil =>
    rw [List.length_nil] at hfull
    omega
  | cons v rest ih =>
    obtain ⟨⟨p, hp⟩, hrest⟩ := List.forall_mem_cons.1 hvalues
    rw [placeAll]
    obtain ⟨hplaced, hroom⟩ | ⟨fault, hfault⟩ := place_fault room spec position slot hp
    · rw [List.length_cons] at hfull
      obtain ⟨fault, hfault⟩ := ih hroom (by omega) hrest
      rw [hplaced, hfault]
      exact ⟨fault, rfl⟩
    · rw [hfault]
      exact ⟨fault, rfl⟩

/-- Values that need more slots than there is room for do not fit the parameters. -/
theorem placeParams_fault (specs : List ParamSpec) {values : List Value} (position : Nat)
    {slot : Nat} (hslot : slot ≤ room) (hfull : room < slot + (slotValues specs values).length)
    (hvalues : ∀ v ∈ slotValues specs values, ∃ p, v.encode limits = .ok p) :
    ∃ fault, placeParams limits room position slot specs values = .error (.fault fault) := by
  induction specs generalizing position slot values with
  | nil =>
    cases values with
    | nil =>
      rw [slotValues_nil, List.length_nil] at hfull
      omega
    | cons v rest => exact ⟨_, rfl⟩
  | cons spec specs ih =>
    unfold placeParams
    split
    · next hplural =>
      rw [slotValues_plural hplural] at hfull hvalues
      obtain ⟨fault, hfault⟩ := placeAll_fault _ hslot hfull hvalues
      rw [hfault]
      exact ⟨fault, rfl⟩
    · next hsingle =>
      rw [Bool.not_eq_true] at hsingle
      cases values with
      | nil =>
        rw [slotValues_nil, List.length_nil] at hfull
        omega
      | cons v rest =>
        rw [slotValues_single hsingle] at hfull hvalues
        obtain ⟨⟨p, hp⟩, hrest⟩ := List.forall_mem_cons.1 hvalues
        rw [List.length_cons] at hfull
        obtain ⟨hplaced, hroom⟩ | ⟨fault, hfault⟩ := place_fault room spec position slot hp
        · obtain ⟨fault, hfault⟩ := ih (position + 1) hroom (by omega) hrest
          exact ⟨fault, bind_eq_error.2 (.inr ⟨_, hplaced, bind_eq_error.2 (.inl hfault)⟩)⟩
        · exact ⟨fault, bind_eq_error.2 (.inl hfault)⟩

end Placing

section Tags
variable (site : Site) (choices : TagChoices)

theorem tagSlots_slots (tags : List TagSpec) (slot : Nat) :
    (tagSlots site choices slot tags).map (·.slot) = List.range' slot tags.length := by
  induction tags generalizing slot with
  | nil => rfl
  | cons tag rest ih => rw [tagSlots, List.map_cons, ih, List.length_cons, List.range'_succ]

theorem tagSlots_written (tags : List TagSpec) (slot : Nat) :
    ∀ s ∈ tagSlots site choices slot tags, ∃ tag ∈ tags,
      s.item = .tag (chosenOption choices tag) tag.name site.action site.block := by
  induction tags generalizing slot with
  | nil => simp [tagSlots]
  | cons tag rest ih =>
    rw [tagSlots]
    refine List.forall_mem_cons.2 ⟨⟨tag, List.mem_cons_self, rfl⟩, fun s hs => ?_⟩
    obtain ⟨other, hother, hitem⟩ := ih (slot + 1) s hs
    exact ⟨other, List.mem_cons_of_mem _ hother, hitem⟩

theorem tagSlots_append (tags more : List TagSpec) (slot : Nat) :
    tagSlots site choices slot (tags ++ more) =
      tagSlots site choices slot tags ++ tagSlots site choices (slot + tags.length) more := by
  induction tags generalizing slot with
  | nil => rfl
  | cons tag rest ih =>
    rw [List.cons_append, tagSlots, ih, tagSlots, List.length_cons, List.cons_append]
    congr 3
    omega

end Tags

/-- Slots as they should be: no two arguments share one, all are within the limit, and the last tag
has the last slot. -/
structure SlotsInOrder (site : Site) (limits : Limits) (schema : ActionSchema)
    (items : List Slot) : Prop where
  distinct : (items.map (·.slot)).Nodup
  within : ∀ s ∈ items, s.slot < limits.maxParameters
  lastTag : ∀ tag, schema.tags.getLast? = some tag → ∃ option,
    items.getLast? = some ⟨.tag option tag.name site.action site.block, limits.maxParameters - 1⟩

section Arguments
variable {site : Site} {limits : Limits} {schema : ActionSchema} {values : List Value}
  {choices : TagChoices} {items : List Slot}

theorem arguments_ok (h : arguments site limits schema values choices = .ok items) :
    ∃ params, placeParams limits (limits.maxParameters - schema.tags.length) 0 0 schema.params
        values = .ok params ∧
      items = params ++ tagSlots site choices (limits.maxParameters - schema.tags.length)
        schema.tags := by
  obtain ⟨params, hparams, h⟩ := bind_eq_ok.1 h
  obtain ⟨_, _, h⟩ := bind_eq_ok.1 h
  obtain ⟨_, _, h⟩ := bind_eq_ok.1 h
  cases h
  exact ⟨params, hparams, rfl⟩

/-- The parameters stay below the slots of the tags. -/
theorem arguments_slots (h : arguments site limits schema values choices = .ok items) :
    (slotValues schema.params values).length ≤ limits.maxParameters - schema.tags.length ∧
      items.map (·.slot) = List.range' 0 (slotValues schema.params values).length ++
        List.range' (limits.maxParameters - schema.tags.length) schema.tags.length := by
  obtain ⟨params, hparams, rfl⟩ := arguments_ok h
  obtain ⟨hplaced, hroom⟩ := placeParams_placed _ hparams (Nat.zero_le _)
  rw [List.map_append, hplaced.numbers, tagSlots_slots]
  exact ⟨by omega, rfl⟩

/-- A slot holds one of the values or the option of a tag. -/
theorem arguments_written (h : arguments site limits schema values choices = .ok items) :
    ∀ s ∈ items, (∃ v ∈ slotValues schema.params values, v.encode limits = .ok s.item) ∨
      ∃ tag ∈ schema.tags,
        s.item = .tag (chosenOption choices tag) tag.name site.action site.block := by
  obtain ⟨params, hparams, rfl⟩ := arguments_ok h
  obtain ⟨hplaced, _⟩ := placeParams_placed _ hparams (Nat.zero_le _)
  intro s hs
  obtain hs | hs := List.mem_append.1 hs
  · exact .inl (hplaced.written s hs)
  · exact .inr (tagSlots_written site choices _ _ s hs)

theorem arguments_distinct (h : arguments site limits schema values choices = .ok items) :
    (items.map (·.slot)).Nodup := by
  obtain ⟨hroom, hslots⟩ := arguments_slots h
  rw [hslots, List.nodup_append]
  refine ⟨List.nodup_range', List.nodup_range', fun i hi j hj => ?_⟩
  rw [List.mem_range'_1] at hi hj
  omega

theorem arguments_lastTag {tag : TagSpec}
    (h : arguments site limits schema values choices = .ok items)
    (htag : schema.tags.getLast? = some tag) :
    items.getLast? = some ⟨.tag (chosenOption choices tag) tag.name site.action site.block,
      limits.maxParameters - schema.tags.length + (schema.tags.length - 1)⟩ := by
  obtain ⟨params, _, rfl⟩ := arguments_ok h
  obtain ⟨first, htags⟩ := List.getLast?_eq_some_iff.1 htag
  rw [htags, tagSlots_append]
  simp [tagSlots]

/-- Only too many tags put the slots out of order. -/
theorem arguments_inOrder (h : arguments site limits schema values choices = .ok items) :
    SlotsInOrder site limits schema items ↔ schema.tags.length ≤ limits.maxParameters := by
  obtain ⟨hroom, hslots⟩ := arguments_slots h
  constructor
  · intro order
    -- The last tag would be beyond the limit.
    refine Nat.le_of_not_lt fun hmany => ?_
    have hlast : schema.tags.length - 1 ∈ items.map (·.slot) := by
      rw [hslots, List.mem_append]
      exact .inr (List.mem_range'_1.2 (by omega))
    obtain ⟨s, hs, hslot⟩ := List.mem_map.1 hlast
    have := order.within s hs
    omega
  · intro hfew
    refine ⟨arguments_distinct h, fun s hs => ?_, fun tag htag => ⟨chosenOption choices tag, ?_⟩⟩
    · have hslot : s.slot ∈ items.map (·.slot) := List.mem_map_of_mem hs
      rw [hslots, List.mem_append, List.mem_range'_1, List.mem_range'_1] at hslot
      omega
    · have hsome : 0 < schema.tags.length :=
        List.length_pos_of_mem (List.mem_of_getLast? htag)
      rw [arguments_lastTag h htag]
      congr 2
      omega

/-- Too many values are a fault of the arguments unless one of them cannot be written at all. -/
theorem arguments_fault (site : Site) (choices : TagChoices)
    (hfull : limits.maxParameters - schema.tags.length < (slotValues schema.params values).length)
    (hvalues : ∀ v ∈ slotValues schema.params values, ∃ p, v.encode limits = .ok p) :
    ∃ fault, arguments site limits schema values choices = .error (.fault fault) := by
  rw [← Nat.zero_add (slotValues schema.params values).length] at hfull
  obtain ⟨fault, hfault⟩ := placeParams_fault schema.params 0 (Nat.zero_le _) hfull hvalues
  exact ⟨fault, bind_eq_error.2 (.inl hfault)⟩

end Arguments

theorem Site.slots_ok {site : Site} {table : SchemaTable} {limits : Limits} {values : List Value}
    {choices : TagChoices} {items : List Slot}
    (h : site.slots table limits values choices = .ok items) :
    ∃ schema, table.lookup site.block site.action = some schema ∧
      arguments site limits schema values choices = .ok items := by
  obtain ⟨schema, hschema, h⟩ := bind_eq_ok.1 h
  have hlookup : table.lookup site.block site.action = some schema := by
    rw [Site.schema] at hschema
    split at hschema <;> cases hschema
    assumption
  refine ⟨schema, hlookup, ?_⟩
  split at h <;> cases h
  assumption

end BlockTemplate
