import BlockTemplate.Proofs.Json.Denoted
import BlockTemplate.Proofs.Record.RoundTrip

/-! Documents that were read can be written: their doubles are finite, their counts fit, and they
are written no deeper than they were read. -/
namespace BlockTemplate
open Json

theorem nestingOf_le_iff {items : List Data} {n : Nat} :
    nestingOf items ≤ n ↔ ∀ d ∈ items, d.nesting ≤ n := by
  induction items with
  | nil => simp [nestingOf]
  | cons d items ih => simp [nestingOf, ih]

section Lists

theorem realsOfParameters_eq (items : List Parameter) :
    realsOfParameters items = items.flatMap Parameter.reals := by
  induction items with
  | nil => rfl
  | cons p items ih => rw [realsOfParameters, ih, List.flatMap_cons]

theorem sizedParameters_iff {items : List Parameter} :
    SizedParameters items ↔ ∀ p ∈ items, p.Sized := by
  induction items with
  | nil => simp [SizedParameters]
  | cons p items ih => simp [SizedParameters, ih]

theorem parametersToData_eq (items : List Parameter) :
    parametersToData items = items.map Parameter.toData := by
  induction items with
  | nil => rfl
  | cons p items ih => rw [parametersToData, ih, List.map_cons]

theorem realsOfEntries_eq (entries : List (String × Parameter)) :
    realsOfEntries entries = realsOfParameters (entries.map (·.2)) := by
  induction entries with
  | nil => rfl
  | cons e entries ih => rw [realsOfEntries, ih, List.map_cons, realsOfParameters]

theorem sizedEntries_iff {entries : List (String × Parameter)} :
    SizedEntries entries ↔ SizedParameters (entries.map (·.2)) := by
  induction entries with
  | nil => rfl
  | cons e entries ih => rw [SizedEntries, ih, List.map_cons, SizedParameters]

/-- An entry is written one level around its value. -/
theorem nestingOf_entriesToData (entries : List (String × Parameter)) {n : Nat}
    (h : ∀ e ∈ entries, e.2.toData.nesting < n) : nestingOf (entriesToData entries) ≤ n := by
  induction entries with
  | nil => exact Nat.zero_le _
  | cons e entries ih =>
    obtain ⟨hfirst, hrest⟩ := List.forall_mem_cons.1 h
    simp only [entriesToData, nestingOf, Data.nesting, fieldNesting, Nat.max_le]
    exact ⟨by omega, ih hrest⟩

end Lists

/-- A parameter that can be written and read again with so many arrays and objects around each
other. -/
structure Parameter.Fits (depth : Nat) (p : Parameter) : Prop where
  finite : ∀ x ∈ p.reals, x.isFinite = true
  sized : p.Sized
  nesting : p.toData.nesting ≤ depth

namespace Parameter

theorem fits_list {items : List Parameter} {depth : Nat} (h : ∀ p ∈ items, p.Fits depth) :
    (Parameter.list items).Fits (depth + 3) where
  finite x hx := by
    rw [reals, realsOfParameters_eq] at hx
    obtain ⟨p, hp, hx⟩ := List.mem_flatMap.1 hx
    exact (h p hp).finite x hx
  sized := sizedParameters_iff.2 fun p hp => (h p hp).sized
  nesting := by
    have hitems : nestingOf (items.map toData) ≤ depth := by
      rw [nestingOf_le_iff, List.forall_mem_map]
      exact fun p hp => (h p hp).nesting
    simp only [toData, parametersToData_eq, nesting_tagged, fieldNesting, Data.nesting]
    omega

theorem fits_dict {entries : List (String × Parameter)} {depth : Nat}
    (h : ∀ e ∈ entries, ∃ inner, depth = inner + 1 ∧ e.2.Fits inner) :
    (Parameter.dict entries).Fits (depth + 3) where
  finite x hx := by
    rw [reals, realsOfEntries_eq, realsOfParameters_eq] at hx
    obtain ⟨p, hp, hx⟩ := List.mem_flatMap.1 hx
    obtain ⟨e, he, rfl⟩ := List.mem_map.1 hp
    obtain ⟨inner, _, hfits⟩ := h e he
    exact hfits.finite x hx
  sized := by
    rw [Sized, sizedEntries_iff, sizedParameters_iff, List.forall_mem_map]
    intro e he
    obtain ⟨inner, _, hfits⟩ := h e he
    exact hfits.sized
  nesting := by
    have hentries : nestingOf (entriesToData entries) ≤ depth := by
      refine nestingOf_entriesToData entries fun e he => ?_
      obtain ⟨inner, rfl, hfits⟩ := h e he
      exact Nat.lt_succ_of_le hfits.nesting
    simp only [toData, nesting_tagged, fieldNesting, Data.nesting]
    omega

/-- A record of texts alone. -/
def Plain : Parameter → Prop
  | .text _ | .number _ | .item _ | .particle _ | .variable _ _ | .gameValue _ _
  | .tag _ _ _ _ => True
  | _ => False

theorem Plain.fits {p : Parameter} (h : p.Plain) (depth : Nat) : p.Fits (depth + 2) := by
  cases p with
  | location | vector | sound | potion | list | dict => cases h
  | _ =>
    refine ⟨by simp [reals], trivial, ?_⟩
    simp [toData, nesting_tagged, fieldNesting, Data.nesting]

end Parameter

theorem Position.ofData?_within {d : Data} {depth : Nat} (hd : d.Within depth) {p : Position}
    (h : Position.ofData? d = some p) : 0 < depth ∧ ∀ x ∈ p.reals, x.isFinite = true := by
  obtain ⟨values, hvalues, h⟩ := Option.bind_eq_some_iff.1 h
  obtain ⟨inner, rfl, hwithin⟩ := hd.fields hvalues
  split at h
  · simp only [Option.bind_eq_bind, Option.bind_eq_some_iff, Option.pure_def, Option.some.injEq]
      at h
    obtain ⟨x, hx, y, hy, z, hz, pitch, hpitch, yaw, hyaw, rfl⟩ := h
    simp only [List.mem_cons, Option.some.injEq, List.not_mem_nil, or_false, forall_eq_or_imp,
      forall_eq] at hwithin
    obtain ⟨hx', hy', hz', hpitch', hyaw'⟩ := hwithin
    refine ⟨inner.succ_pos, ?_⟩
    simp [Position.reals, hx'.isFinite hx, hy'.isFinite hy, hz'.isFinite hz,
      hpitch'.isFinite hpitch, hyaw'.isFinite hyaw]
  · cases h

section Leaves
variable {fields : List (String × Data)} {p : Parameter} {depth : Nat}
  (hfields : ∀ f ∈ fields, f.2.Within depth)
include hfields

theorem required?_within {names : List String} {values : List Data}
    (h : required? names fields = some values) : ∀ d ∈ values, d.Within depth := by
  intro d hd
  obtain ⟨f, hf, rfl⟩ := mem_of_required? h hd
  exact hfields f hf

theorem location_fits (h : leaf? "loc" fields = some p) : p.Fits (depth + 2) := by
  obtain ⟨values, hvalues, h⟩ := Option.bind_eq_some_iff.1 h
  split at h
  · obtain ⟨worlds, _, h⟩ := Option.bind_eq_some_iff.1 h
    split at h
    · simp only [Option.bind_eq_bind, Option.bind_eq_some_iff, Option.pure_def,
        Option.some.injEq] at h
      obtain ⟨isBlock, _, position, hposition, world, _, rfl⟩ := h
      have hwithin := required?_within hfields hvalues _ (List.mem_cons_of_mem _ List.mem_cons_self)
      obtain ⟨hdepth, hreals⟩ := Position.ofData?_within hwithin hposition
      refine ⟨hreals, trivial, ?_⟩
      cases world <;>
        simp [Parameter.toData, Position.toData, optionalField, nesting_tagged, fieldNesting,
          Data.nesting] <;> omega
    · cases h
  · cases h

theorem vector_fits (h : leaf? "vec" fields = some p) : p.Fits (depth + 2) := by
  obtain ⟨values, hvalues, h⟩ := Option.bind_eq_some_iff.1 h
  split at h
  · simp only [Option.bind_eq_bind, Option.bind_eq_some_iff, Option.pure_def, Option.some.injEq]
      at h
    obtain ⟨x, hx, y, hy, z, hz, rfl⟩ := h
    have hwithin := required?_within hfields hvalues
    simp only [List.mem_cons, List.not_mem_nil, or_false, forall_eq_or_imp, forall_eq] at hwithin
    obtain ⟨hx', hy', hz'⟩ := hwithin
    refine ⟨?_, trivial, ?_⟩
    · simp [Parameter.reals, hx'.isFinite hx, hy'.isFinite hy, hz'.isFinite hz]
    · simp [Parameter.toData, nesting_tagged, fieldNesting, Data.nesting]
  · cases h

theorem sound_fits (h : leaf? "snd" fields = some p) : p.Fits (depth + 2) := by
  obtain ⟨values, hvalues, h⟩ := Option.bind_eq_some_iff.1 h
  split at h
  · simp only [Option.bind_eq_bind, Option.bind_eq_some_iff, Option.pure_def, Option.some.injEq]
      at h
    obtain ⟨name, _, pitch, hpitch, volume, hvolume, rfl⟩ := h
    have hwithin := required?_within hfields hvalues
    simp only [List.mem_cons, List.not_mem_nil, or_false, forall_eq_or_imp, forall_eq] at hwithin
    obtain ⟨_, hpitch', hvolume'⟩ := hwithin
    refine ⟨?_, trivial, ?_⟩
    · simp [Parameter.reals, hpitch'.isFinite hpitch, hvolume'.isFinite hvolume]
    · simp [Parameter.toData, nesting_tagged, fieldNesting, Data.nesting]
  · cases h

omit hfields in
theorem potion_fits (h : leaf? "pot" fields = some p) (depth : Nat) : p.Fits (depth + 2) := by
  obtain ⟨values, _, h⟩ := Option.bind_eq_some_iff.1 h
  split at h
  · simp only [Option.bind_eq_bind, Option.bind_eq_some_iff, Option.pure_def, Option.some.injEq]
      at h
    obtain ⟨effect, _, duration, hduration, amplifier, hamplifier, rfl⟩ := h
    refine ⟨by simp [Parameter.reals], ⟨natBelow?_lt hduration, natBelow?_lt hamplifier⟩, ?_⟩
    simp [Parameter.toData, nesting_tagged, fieldNesting, Data.nesting]
  · cases h

theorem leaf?_fits {id : String} (h : leaf? id fields = some p) : p.Fits (depth + 2) := by
  have hleaf := h
  unfold leaf? at h
  split at h
  case h_3 => exact location_fits hfields hleaf
  case h_4 => exact vector_fits hfields hleaf
  case h_6 => exact sound_fits hfields hleaf
  case h_7 => exact potion_fits hleaf depth
  case h_12 => cases h
  -- The others hold texts alone.
  all_goals
    obtain ⟨values, _, h⟩ := Option.bind_eq_some_iff.1 h
    split at h
    · apply Parameter.Plain.fits
      simp only [Option.bind_eq_bind, Option.bind_eq_some_iff, Option.pure_def,
        Option.some.injEq] at h
      clear hleaf hfields
      grind [Parameter.Plain]
    · cases h

end Leaves

theorem keyed?_fits {value? : Data → Option Parameter} {depth : Nat} {d : Data}
    (hvalue : ∀ {inner d p}, d.Within inner → value? d = some p → p.Fits inner)
    (hd : d.Within depth) {e : String × Parameter}
    (h : Parameter.ofData?.keyed? value? d = some e) :
    ∃ inner, depth = inner + 1 ∧ e.2.Fits inner := by
  obtain ⟨values, hvalues, h⟩ := Option.bind_eq_some_iff.1 h
  obtain ⟨inner, rfl, hwithin⟩ := hd.fields hvalues
  split at h
  · obtain ⟨key, _, h⟩ := Option.bind_eq_some_iff.1 h
    obtain ⟨p, hp, h⟩ := Option.bind_eq_some_iff.1 h
    cases h
    exact ⟨inner, rfl, hvalue (hwithin _ (by simp)) hp⟩
  · cases h

/-- The items of an array that is the only field asked for. -/
theorem items_within {name : String} {fields : List (String × Data)} {depth : Nat} {d : Data}
    {items : List Data} (hfields : ∀ f ∈ fields, f.2.Within depth)
    (h : required? [name] fields = some [d]) (hitems : d.array? = some items) :
    ∃ inner, depth = inner + 1 ∧ ∀ x ∈ items, x.Within inner :=
  (required?_within hfields h d (List.mem_singleton_self d)).items hitems

theorem Parameter.ofData?_fits (n : Nat) {d : Data} {depth : Nat} (hd : d.Within depth)
    {p : Parameter} (h : Parameter.ofData? n d = some p) : p.Fits depth := by
  induction n generalizing d depth p with
  | zero => cases h
  | succ n ih =>
    obtain ⟨values, hvalues, h⟩ := Option.bind_eq_some_iff.1 h
    obtain ⟨inner, rfl, hwithin⟩ := hd.fields hvalues
    split at h
    · next id fields =>
      obtain ⟨id, hid, h⟩ := Option.bind_eq_some_iff.1 h
      have hobject : (Data.object fields).Within inner := hwithin _ (by simp)
      cases hobject with
      | object hfields =>
        split at h
        · obtain ⟨values, hvalues, h⟩ := Option.bind_eq_some_iff.1 h
          split at h
          · obtain ⟨items, hitems, h⟩ := Option.bind_eq_some_iff.1 h
            obtain ⟨params, hparams, h⟩ := Option.bind_eq_some_iff.1 h
            cases h
            obtain ⟨inner, rfl, hinside⟩ := items_within hfields hvalues hitems
            refine fits_list fun p hp => ?_
            obtain ⟨x, hx, hread⟩ := mem_of_mapM hparams hp
            exact ih (hinside x hx) hread
          · cases h
        · obtain ⟨values, hvalues, h⟩ := Option.bind_eq_some_iff.1 h
          split at h
          · obtain ⟨items, hitems, h⟩ := Option.bind_eq_some_iff.1 h
            obtain ⟨entries, hentries, h⟩ := Option.bind_eq_some_iff.1 h
            cases h
            obtain ⟨inner, rfl, hinside⟩ := items_within hfields hvalues hitems
            refine fits_dict fun e he => ?_
            obtain ⟨x, hx, hread⟩ := mem_of_mapM hentries he
            exact keyed?_fits (fun hd h => ih hd h) (hinside x hx) hread
          · cases h
        · exact leaf?_fits hfields h
    · cases h

structure Slot.Fits (depth : Nat) (s : Slot) : Prop where
  slot : s.slot < UInt64.size
  item : s.item.Fits depth

theorem Slot.ofData?_fits {d : Data} {depth : Nat} (hd : d.Within depth) {s : Slot}
    (h : Slot.ofData? d = some s) : ∃ inner, depth = inner + 1 ∧ s.Fits inner := by
  obtain ⟨values, hvalues, h⟩ := Option.bind_eq_some_iff.1 h
  obtain ⟨inner, rfl, hwithin⟩ := hd.fields hvalues
  split at h
  · obtain ⟨item, hitem, h⟩ := Option.bind_eq_some_iff.1 h
    obtain ⟨slot, hslot, h⟩ := Option.bind_eq_some_iff.1 h
    cases h
    exact ⟨inner, rfl, natBelow?_lt hslot, Parameter.ofData?_fits _ (hwithin _ (by simp)) hitem⟩
  · cases h

/-- The items of a block stand in two objects and an array. -/
def FitInBlock (depth : Nat) (items : List Slot) : Prop :=
  ∀ s ∈ items, ∃ inner, depth = inner + 4 ∧ s.Fits inner

theorem slots?_fit {args : Option Data} {depth : Nat} (hargs : ∀ d, args = some d → d.Within depth)
    {items : List Slot} (h : slots? args = some items) : FitInBlock (depth + 1) items := by
  cases args with
  | none =>
    cases h
    intro s hs
    cases hs
  | some d =>
    obtain ⟨values, hvalues, h⟩ := Option.bind_eq_some_iff.1 h
    obtain ⟨inner, rfl, hwithin⟩ := (hargs d rfl).fields hvalues
    split at h
    · obtain ⟨found, hfound, h⟩ := Option.bind_eq_some_iff.1 h
      obtain ⟨inner, rfl, hinside⟩ := (hwithin _ (by simp)).items hfound
      intro s hs
      obtain ⟨x, hx, hread⟩ := mem_of_mapM h hs
      obtain ⟨inner, rfl, hfits⟩ := Slot.ofData?_fits (hinside x hx) hread
      exact ⟨inner, rfl, hfits⟩
    · cases h

theorem CodeBlock.ofData?_fit {d : Data} {depth : Nat} (hd : d.Within depth) {b : CodeBlock}
    (h : CodeBlock.ofData? d = some b) : FitInBlock depth b.items := by
  obtain ⟨values, hvalues, h⟩ := Option.bind_eq_some_iff.1 h
  obtain ⟨inner, rfl, hwithin⟩ := hd.fields hvalues
  split at h
  · simp only [Option.bind_eq_bind, Option.bind_eq_some_iff, Option.pure_def, Option.some.injEq]
      at h
    obtain ⟨block, _, items, hitems, _, _, _, _, _, _, _, _, _, _, rfl⟩ := h
    refine slots?_fit (fun d hd => hwithin d ?_) hitems
    simp [hd]
  · cases h

theorem CodeBlock.nesting_toData (b : CodeBlock) :
    b.toData.nesting = nestingOf (b.items.map Slot.toData) + 3 := by
  have hoptional (key : String) (value : Option String) (fields : List (String × Data)) :
      fieldNesting (optionalField key value ++ fields) = fieldNesting fields := by
    cases value <;> simp [optionalField, fieldNesting, Data.nesting]
  rw [toData_eq]
  simp only [Data.nesting, fieldNesting, fields, argsData, hoptional]
  omega

theorem splitTag?_within {d : Data} {depth : Nat} (hd : d.Within depth) {tag : String}
    {rest : Data} (h : splitTag? d = some (tag, rest)) : rest.Within depth := by
  cases hd with
  | object hfields =>
    rw [splitTag?] at h
    split at h <;> cases h
    exact .object fun f hf => hfields f (List.mem_filter.1 hf).1
  | @array _ items hitems =>
    cases items with
    | nil => cases h
    | cons first others =>
      cases first with
      | text =>
        cases h
        exact .array fun x hx => hitems x (List.mem_cons_of_mem _ hx)
      | _ => cases h
  | _ => cases h

/-- A record fits as deep as it was read, or in the three levels of a block without items. -/
structure Record.Fits (depth : Nat) (r : Record) : Prop where
  slots : FitInBlock depth r.slots
  nesting : r.toData.nesting ≤ max 3 depth

theorem Record.ofData?_fits {d : Data} {depth : Nat} (hd : d.Within depth) {r : Record}
    (h : Record.ofData? d = some r) : r.Fits depth := by
  obtain ⟨parts, hparts, h⟩ := Option.bind_eq_some_iff.1 h
  split at h
  · obtain ⟨b, hb, h⟩ := Option.bind_eq_some_iff.1 h
    cases h
    have hitems := CodeBlock.ofData?_fit (splitTag?_within hd hparts) hb
    refine ⟨hitems, ?_⟩
    have hnesting : nestingOf (b.items.map Slot.toData) ≤ depth - 3 := by
      rw [nestingOf_le_iff, List.forall_mem_map]
      intro s hs
      obtain ⟨inner, rfl, hfits⟩ := hitems s hs
      have := hfits.item.nesting
      simp only [Slot.toData, Data.nesting, fieldNesting]
      omega
    rw [Record.toData, b.nesting_toData]
    omega
  · obtain ⟨values, _, h⟩ := Option.bind_eq_some_iff.1 h
    split at h
    · simp only [Option.bind_eq_bind, Option.bind_eq_some_iff, Option.pure_def,
        Option.some.injEq] at h
      obtain ⟨_, _, _, _, _, _, _, _, rfl⟩ := h
      refine ⟨fun s hs => absurd hs List.not_mem_nil, ?_⟩
      simp only [Record.toData, Data.nesting, fieldNesting]
      omega
    · cases h
  · cases h

namespace Document

/-- What was read can be written and read again. -/
theorem ofTerm?_fits {t : Term} {d : Document} (h : Document.ofTerm? t = some d) :
    d.Finite ∧ d.Sized ∧ d.toData.nesting ≤ readingDepth := by
  obtain ⟨blocks, _, h⟩ := Option.bind_eq_some_iff.1 h
  obtain ⟨data, hdata, h⟩ := Option.bind_eq_some_iff.1 h
  obtain ⟨items, hitems, h⟩ := Option.bind_eq_some_iff.1 h
  obtain ⟨records, hrecords, h⟩ := Option.bind_eq_some_iff.1 h
  cases h
  obtain ⟨inner, hinner, hwithin⟩ := (blocks.toData?_within hdata).items hitems
  have hfits : ∀ r ∈ records, r.Fits inner := by
    intro r hr
    obtain ⟨x, hx, hread⟩ := mem_of_mapM hrecords hr
    exact Record.ofData?_fits (hwithin x hx) hread
  have hslots : ∀ s ∈ (⟨records⟩ : Document).slots, ∃ depth, s.Fits depth := by
    intro s hs
    obtain ⟨r, hr, hs⟩ := List.mem_flatMap.1 hs
    obtain ⟨depth, _, hs⟩ := (hfits r hr).slots s hs
    exact ⟨depth, hs⟩
  refine ⟨fun x hx => ?_, fun s hs => ?_, ?_⟩
  · obtain ⟨s, hs, hx⟩ := List.mem_flatMap.1 hx
    obtain ⟨depth, hs⟩ := hslots s hs
    exact hs.item.finite x hx
  · obtain ⟨depth, hs⟩ := hslots s hs
    exact ⟨hs.slot, hs.item.sized⟩
  · have hnesting : nestingOf (records.map Record.toData) ≤ max 3 inner := by
      rw [nestingOf_le_iff, List.forall_mem_map]
      exact fun r hr => (hfits r hr).nesting
    rw [readingDepth] at hinner ⊢
    simp only [Document.toData, Data.nesting, fieldNesting]
    omega

end Document
end BlockTemplate
