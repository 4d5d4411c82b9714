import BlockTemplate.Compile
import BlockTemplate.Proofs.Emission.Steps
import BlockTemplate.Proofs.Record.RoundTrip

/-! What gets into the slots of a document: only finite doubles, and counts within their words. -/
namespace BlockTemplate
open ValueError

/-- A parameter that is safe to write down. -/
structure Parameter.Sound (p : Parameter) : Prop where
  finite : ∀ x ∈ p.reals, x.isFinite = true
  sized : p.Sized

theorem requireFinite_ok {field : String} {x : Float} (h : requireFinite field x = .ok ()) :
    x.isFinite = true := by
  by_cases hx : x.isFinite = true
  · exact hx
  · simp [requireFinite, hx] at h

theorem requireRange_ok {field : String} {x min max : Float}
    (h : requireRange field x min max = .ok ()) : x.isFinite = true := by
  obtain ⟨_, hfinite, _⟩ := bind_eq_ok.1 h
  exact requireFinite_ok hfinite

theorem requireCoordinate_ok {field : String} {x bound : Float}
    (h : requireCoordinate field x bound = .ok ()) : x.isFinite = true := by
  obtain ⟨_, hfinite, _⟩ := bind_eq_ok.1 h
  exact requireFinite_ok hfinite

theorem requireVolume_ok {x : Float} (h : requireVolume x = .ok ()) : x.isFinite = true := by
  obtain ⟨_, hfinite, _⟩ := bind_eq_ok.1 h
  exact requireFinite_ok hfinite

theorem requireNatRange_ok {field : String} {n min max : Nat}
    (h : requireNatRange field n min max = .ok ()) : n ≤ max := by
  by_cases hn : n < min ∨ max < n
  · simp [requireNatRange, hn] at h
  · omega

theorem Location.encode_sound {limits : Limits} {l : Location} {p : Parameter}
    (h : l.encode limits = .ok p) : p.Sound := by
  obtain ⟨_, hx, h⟩ := bind_eq_ok.1 h
  obtain ⟨_, hy, h⟩ := bind_eq_ok.1 h
  obtain ⟨_, hz, h⟩ := bind_eq_ok.1 h
  obtain ⟨_, hpitch, h⟩ := bind_eq_ok.1 h
  obtain ⟨_, hyaw, h⟩ := bind_eq_ok.1 h
  cases h
  refine ⟨?_, trivial⟩
  simp [Parameter.reals, Position.reals, requireCoordinate_ok hx, requireCoordinate_ok hy,
    requireCoordinate_ok hz, requireRange_ok hpitch, requireRange_ok hyaw]

theorem Vector3.encode_sound {v : Vector3} {p : Parameter} (h : v.encode = .ok p) : p.Sound := by
  obtain ⟨_, hx, h⟩ := bind_eq_ok.1 h
  obtain ⟨_, hy, h⟩ := bind_eq_ok.1 h
  obtain ⟨_, hz, h⟩ := bind_eq_ok.1 h
  cases h
  refine ⟨?_, trivial⟩
  simp [Parameter.reals, requireFinite_ok hx, requireFinite_ok hy, requireFinite_ok hz]

theorem Sound.encode_sound {s : Sound} {p : Parameter} (h : s.encode = .ok p) : p.Sound := by
  obtain ⟨_, _, h⟩ := bind_eq_ok.1 h
  obtain ⟨_, hpitch, h⟩ := bind_eq_ok.1 h
  obtain ⟨_, hvolume, h⟩ := bind_eq_ok.1 h
  cases h
  refine ⟨?_, trivial⟩
  simp [Parameter.reals, requireRange_ok hpitch, requireVolume_ok hvolume]

theorem Potion.encode_sound {q : Potion} {p : Parameter} (h : q.encode = .ok p) : p.Sound := by
  obtain ⟨_, _, h⟩ := bind_eq_ok.1 h
  obtain ⟨_, hamplifier, h⟩ := bind_eq_ok.1 h
  obtain ⟨_, hduration, h⟩ := bind_eq_ok.1 h
  cases h
  have hamplifier := requireNatRange_ok hamplifier
  have hduration := requireNatRange_ok hduration
  refine ⟨by simp [Parameter.reals], ?_, ?_⟩
  · exact Nat.lt_of_le_of_lt hduration (by decide)
  · exact Nat.lt_of_le_of_lt hamplifier (by decide)

/-- A record without doubles and counts is sound. -/
theorem Parameter.sound_of_plain {p : Parameter} (hreals : p.reals = []) (hsized : p.Sized) :
    p.Sound :=
  ⟨by simp [hreals], hsized⟩

namespace Value

mutual

theorem encode_sound {limits : Limits} (v : Value) {p : Parameter}
    (h : v.encode limits = .ok p) : p.Sound := by
  match v with
  | .text _ =>
    rw [encode] at h
    cases h
    exact Parameter.sound_of_plain rfl trivial
  | .number _ | .item _ | .particle _ | .gameValue _ | .variable _ =>
    rw [encode] at h
    obtain ⟨_, _, h⟩ := bind_eq_ok.1 h
    cases h
    exact Parameter.sound_of_plain rfl trivial
  | .location l => exact l.encode_sound (by rwa [encode] at h)
  | .vector u => exact u.encode_sound (by rwa [encode] at h)
  | .sound s => exact s.encode_sound (by rwa [encode] at h)
  | .potion q => exact q.encode_sound (by rwa [encode] at h)
  | .list items =>
    rw [encode] at h
    obtain ⟨params, hparams, h⟩ := bind_eq_ok.1 h
    cases h
    obtain ⟨hfinite, hsized⟩ := encodeList_sound items hparams
    exact ⟨hfinite, hsized⟩
  | .dict entries =>
    rw [encode] at h
    obtain ⟨params, hparams, h⟩ := bind_eq_ok.1 h
    cases h
    obtain ⟨hfinite, hsized⟩ := encodeEntries_sound entries hparams
    exact ⟨hfinite, hsized⟩

theorem encodeList_sound {limits : Limits} (items : List Value) {params : List Parameter}
    (h : encodeList limits items = .ok params) :
    (∀ x ∈ realsOfParameters params, x.isFinite = true) ∧ SizedParameters params := by
  match items with
  | [] =>
    cases h
    exact ⟨by simp [realsOfParameters], trivial⟩
  | v :: rest =>
    obtain ⟨first, hfirst, h⟩ := bind_eq_ok.1 h
    obtain ⟨others, hothers, h⟩ := bind_eq_ok.1 h
    cases h
    obtain ⟨hfinite, hsized⟩ := v.encode_sound hfirst
    obtain ⟨hfinites, hsizeds⟩ := encodeList_sound rest hothers
    refine ⟨?_, hsized, hsizeds⟩
    simpa [realsOfParameters, or_imp, forall_and] using ⟨hfinite, hfinites⟩

theorem encodeEntries_sound {limits : Limits} {seen : List String} (entries : List (String × Value))
    {params : List (String × Parameter)} (h : encodeEntries limits seen entries = .ok params) :
    (∀ x ∈ realsOfEntries params, x.isFinite = true) ∧ SizedEntries params := by
  match entries with
  | [] =>
    cases h
    exact ⟨by simp [realsOfEntries], trivial⟩
  | (key, v) :: rest =>
    rw [encodeEntries] at h
    by_cases hseen : seen.contains key = true
    · simp only [hseen, if_true] at h
      cases h
    · simp only [hseen] at h
      obtain ⟨first, hfirst, h⟩ := bind_eq_ok.1 h
      obtain ⟨others, hothers, h⟩ := bind_eq_ok.1 h
      cases h
      obtain ⟨hfinite, hsized⟩ := v.encode_sound hfirst
      obtain ⟨hfinites, hsizeds⟩ := encodeEntries_sound rest hothers
      refine ⟨?_, hsized, hsizeds⟩
      simpa [realsOfEntries, or_imp, forall_and] using ⟨hfinite, hfinites⟩

end

end Value

/-- A slot as emission fills it: its place is among those of parameters or of tags. -/
structure Slot.Emitted (limits : Limits) (schema : ActionSchema) (s : Slot) : Prop where
  item : s.item.Sound
  place : s.slot < max limits.maxParameters schema.tags.length

theorem arguments_emitted {site : Site} {limits : Limits} {schema : ActionSchema}
    {values : List Value} {choices : TagChoices} {slots : List Slot}
    (h : arguments site limits schema values choices = .ok slots) :
    ∀ s ∈ slots, s.Emitted limits schema := by
  obtain ⟨hroom, hnumbers⟩ := arguments_slots h
  intro s hs
  constructor
  · obtain ⟨v, _, hencode⟩ | ⟨tag, _, htag⟩ := arguments_written h s hs
    · exact v.encode_sound hencode
    · rw [htag]
      exact Parameter.sound_of_plain rfl trivial
  · have hslot : s.slot ∈ slots.map (·.slot) := List.mem_map_of_mem hs
    rw [hnumbers, List.mem_append, List.mem_range'_1, List.mem_range'_1] at hslot
    omega

/-- What the slots of emitted records have in common. -/
def EmittedSlots (table : SchemaTable) (limits : Limits) (records : List Record) : Prop :=
  ∀ s ∈ records.flatMap Record.slots,
    ∃ block action schema, table.lookup block action = some schema ∧ s.Emitted limits schema

section Records
variable {table : SchemaTable} {limits : Limits} {records : List Record}

/-- A slot is among the arguments of the step that it is emitted by. -/
theorem Step.use_of_slot {step : Step} (h : step.records table limits = .ok records) {s : Slot}
    (hs : s ∈ records.flatMap Record.slots) :
    ∃ u schema slots, step.use? = some u ∧ table.lookup u.block u.action = some schema ∧
      arguments ⟨step.index, u.block, u.action⟩ limits schema u.values u.choices = .ok slots ∧
      s ∈ slots := by
  obtain ⟨r, hr, hs⟩ := List.mem_flatMap.1 hs
  cases r with
  | bracket side type => cases hs
  | block b =>
    have hs : s ∈ b.items := hs
    obtain ⟨_, hnone⟩ | ⟨u, hu, hitems⟩ := Step.block_items h hr
    · rw [hnone] at hs
      cases hs
    · obtain ⟨schema, hlookup, harguments⟩ := Site.slots_ok hitems
      exact ⟨u, schema, b.items, hu, hlookup, harguments, hs⟩

theorem Step.records_emitted {step : Step} (h : step.records table limits = .ok records) :
    EmittedSlots table limits records := by
  intro s hs
  obtain ⟨u, schema, slots, _, hlookup, harguments, hs⟩ := Step.use_of_slot h hs
  exact ⟨_, _, schema, hlookup, arguments_emitted harguments s hs⟩

theorem recordsOf_emitted (steps : List Step) (h : recordsOf table limits steps = .ok records) :
    EmittedSlots table limits records := by
  intro s hs
  obtain ⟨r, hr, hs⟩ := List.mem_flatMap.1 hs
  obtain ⟨step, _, own, hown, hr⟩ := mem_recordsOf steps h hr
  exact Step.records_emitted hown s (List.mem_flatMap.2 ⟨r, hr, hs⟩)

end Records

namespace Compiler
variable {c : Compiler} {name : String} {s : Session} {compiled : Compiled}

theorem compile_emitted (h : c.compile name s = .ok compiled) :
    EmittedSlots c.table c.settings.limits compiled.template.document.blocks := by
  obtain ⟨steps, _, h⟩ := bind_eq_ok.1 h
  obtain ⟨records, hrecords, h⟩ := bind_eq_ok.1 h
  obtain ⟨_, _, hrecords⟩ := bind_eq_ok.1 hrecords
  cases h
  exact recordsOf_emitted steps hrecords

theorem compile_finite (h : c.compile name s = .ok compiled) :
    compiled.template.document.Finite := by
  intro x hx
  obtain ⟨slot, hslot, hx⟩ := List.mem_flatMap.1 hx
  obtain ⟨_, _, _, _, hemitted⟩ := compile_emitted h slot hslot
  exact hemitted.item.finite x hx

/-- The limit on parameters and the numbers of tags fit into 64 bits. -/
structure Sized (c : Compiler) : Prop where
  limit : c.settings.limits.maxParameters ≤ UInt64.size
  tags : ∀ block action schema, c.table.lookup block action = some schema →
    schema.tags.length ≤ UInt64.size

theorem compile_sized (h : c.compile name s = .ok compiled) (hsized : c.Sized) :
    compiled.template.document.Sized := by
  intro slot hslot
  obtain ⟨block, action, schema, hlookup, hemitted⟩ := compile_emitted h slot hslot
  have hlimit := hsized.limit
  have hlength := hsized.tags block action schema hlookup
  have hplace := hemitted.place
  exact ⟨by omega, hemitted.item.sized⟩

end Compiler

end BlockTemplate
