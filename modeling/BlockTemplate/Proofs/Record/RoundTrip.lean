import BlockTemplate.Proofs.Json.Reading
import BlockTemplate.Record.Read

/-! Documents as JSON data and back: a document is read from the term of its data exactly when that
data does not nest too deep. -/
namespace BlockTemplate
open Json

def Position.reals (p : Position) : List Float := [p.x, p.y, p.z, p.pitch, p.yaw]

mutual

/-- The doubles that a parameter record holds. -/
def Parameter.reals : Parameter → List Float
  | .location _ position _ => position.reals
  | .vector x y z => [x, y, z]
  | .sound _ pitch volume => [pitch, volume]
  | .list items => realsOfParameters items
  | .dict entries => realsOfEntries entries
  | _ => []

def realsOfParameters : List Parameter → List Float
  | [] => []
  | p :: rest => p.reals ++ realsOfParameters rest

def realsOfEntries : List (String × Parameter) → List Float
  | [] => []
  | (_, p) :: rest => p.reals ++ realsOfEntries rest

end

mutual

/-- Durations and amplifiers are numbers of 32 bits. -/
def Parameter.Sized : Parameter → Prop
  | .potion _ duration amplifier => duration < UInt32.size ∧ amplifier < UInt32.size
  | .list items => SizedParameters items
  | .dict entries => SizedEntries entries
  | _ => True

def SizedParameters : List Parameter → Prop
  | [] => True
  | p :: rest => p.Sized ∧ SizedParameters rest

def SizedEntries : List (String × Parameter) → Prop
  | [] => True
  | (_, p) :: rest => p.Sized ∧ SizedEntries rest

end

def Record.slots : Record → List Slot
  | .block b => b.items
  | .bracket _ _ => []

namespace Document

def slots (d : Document) : List Slot := d.blocks.flatMap Record.slots

/-- The doubles of a document. -/
def reals (d : Document) : List Float := d.slots.flatMap fun s => s.item.reals

/-- Every double is a number. -/
def Finite (d : Document) : Prop := ∀ x ∈ d.reals, x.isFinite = true

/-- Every count fits the word it is kept in: 64 bits for slots, 32 for those of potions. -/
def Sized (d : Document) : Prop := ∀ s ∈ d.slots, s.slot < UInt64.size ∧ s.item.Sized

end Document

theorem readableFields_append (fields more : List (String × Data)) :
    ReadableFields (fields ++ more) ↔ ReadableFields fields ∧ ReadableFields more := by
  induction fields with
  | nil => simp [ReadableFields]
  | cons f fields ih => simp [ReadableFields, ih, and_assoc]

theorem readableList_map {α : Type} (f : α → Data) (xs : List α) :
    ReadableList (xs.map f) ↔ ∀ x ∈ xs, (f x).Readable := by
  induction xs with
  | nil => simp [ReadableList]
  | cons x xs ih => simp [ReadableList, ih]

theorem readable_tagged (id : String) (data : List (String × Data)) :
    (tagged id data).Readable ↔ ReadableFields data := by
  simp [tagged, Data.Readable, ReadableFields]

theorem readable_optionalField (key : String) (value : Option String) :
    ReadableFields (optionalField key value) := by
  cases value <;> simp [optionalField, ReadableFields, Data.Readable]

theorem readable_word {n size : Nat} (h : n < size) (hsize : size ≤ UInt64.size) :
    (Data.integer n).Readable := by
  have hn : n < UInt64.size := by omega
  exact ⟨by omega, by omega⟩

mutual

theorem Parameter.toData_readable (p : Parameter) (hreals : ∀ x ∈ p.reals, x.isFinite = true)
    (hsized : p.Sized) : p.toData.Readable := by
  match p with
  | .text _ | .number _ | .item _ | .particle _ | .variable _ _ | .gameValue _ _
  | .tag _ _ _ _ => simp [Parameter.toData, readable_tagged, ReadableFields, Data.Readable]
  | .location isBlock position world =>
    simp only [Parameter.reals, Position.reals, List.mem_cons, List.not_mem_nil, or_false,
      forall_eq_or_imp, forall_eq] at hreals
    rw [Parameter.toData, readable_tagged, readableFields_append]
    refine ⟨?_, readable_optionalField _ _⟩
    simp [ReadableFields, Data.Readable, Position.toData, hreals]
  | .vector x y z =>
    simp only [Parameter.reals, List.mem_cons, List.not_mem_nil, or_false, forall_eq_or_imp,
      forall_eq] at hreals
    simp [Parameter.toData, readable_tagged, ReadableFields, Data.Readable, hreals]
  | .sound name pitch volume =>
    simp only [Parameter.reals, List.mem_cons, List.not_mem_nil, or_false, forall_eq_or_imp,
      forall_eq] at hreals
    simp [Parameter.toData, readable_tagged, ReadableFields, Data.Readable, hreals]
  | .potion effect duration amplifier =>
    obtain ⟨hduration, hamplifier⟩ := hsized
    rw [Parameter.toData, readable_tagged]
    exact ⟨trivial, readable_word hduration (by decide), readable_word hamplifier (by decide),
      trivial⟩
  | .list items =>
    rw [Parameter.toData, readable_tagged]
    exact ⟨parametersToData_readable items hreals hsized, trivial⟩
  | .dict entries =>
    rw [Parameter.toData, readable_tagged]
    exact ⟨entriesToData_readable entries hreals hsized, trivial⟩

theorem parametersToData_readable (items : List Parameter)
    (hreals : ∀ x ∈ realsOfParameters items, x.isFinite = true) (hsized : SizedParameters items) :
    ReadableList (parametersToData items) := by
  match items with
  | [] => trivial
  | p :: rest =>
    simp only [realsOfParameters, List.mem_append, or_imp, forall_and] at hreals
    exact ⟨p.toData_readable hreals.1 hsized.1,
      parametersToData_readable rest hreals.2 hsized.2⟩

theorem entriesToData_readable (entries : List (String × Parameter))
    (hreals : ∀ x ∈ realsOfEntries entries, x.isFinite = true) (hsized : SizedEntries entries) :
    ReadableList (entriesToData entries) := by
  match entries with
  | [] => trivial
  | (key, p) :: rest =>
    simp only [realsOfEntries, List.mem_append, or_imp, forall_and] at hreals
    exact ⟨⟨trivial, p.toData_readable hreals.1 hsized.1, trivial⟩,
      entriesToData_readable rest hreals.2 hsized.2⟩

end

theorem nesting_tagged (id : String) (data : List (String × Data)) :
    (tagged id data).nesting = fieldNesting data + 2 := by
  simp [tagged, Data.nesting, fieldNesting]

theorem natBelow?_integer {n bound : Nat} (h : n < bound) :
    (Data.integer n).natBelow? bound = some n := by
  have hn : (0 : Int) ≤ n ∧ (n : Int) < bound := by omega
  rw [Data.natBelow?, if_pos hn]
  rfl

theorem ofData?_potion (n : Nat) (effect : String) (duration amplifier : Data) :
    Parameter.ofData? (n + 1)
        (tagged "pot" [("pot", .text effect), ("dur", duration), ("amp", amplifier)]) =
      (duration.natBelow? UInt32.size).bind fun duration =>
        (amplifier.natBelow? UInt32.size).bind fun amplifier =>
          some (Parameter.potion effect duration amplifier) :=
  rfl

/-- A list or dictionary is read with one step less for what it holds. -/
theorem ofData?_list (n : Nat) (items : List Data) :
    Parameter.ofData? (n + 1) (tagged "list" [("values", .array items)]) =
      (items.mapM (Parameter.ofData? n)).bind fun items => some (Parameter.list items) :=
  rfl

theorem ofData?_dict (n : Nat) (entries : List Data) :
    Parameter.ofData? (n + 1) (tagged "dict" [("entries", .array entries)]) =
      (entries.mapM (Parameter.ofData?.keyed? (Parameter.ofData? n))).bind
        fun entries => some (Parameter.dict entries) :=
  rfl

theorem keyed?_object (value? : Data → Option Parameter) (key : String) (d : Data) :
    Parameter.ofData?.keyed? value? (.object [("key", .text key), ("value", d)]) =
      (value? d).bind fun p => some (key, p) :=
  rfl

mutual

theorem Parameter.ofData?_toData (p : Parameter) (hsized : p.Sized) {n : Nat}
    (hn : p.toData.nesting ≤ n) : Parameter.ofData? n p.toData = some p := by
  obtain ⟨n, rfl⟩ : ∃ k, n = k + 1 := by
    cases p <;> simp only [Parameter.toData, nesting_tagged] at hn <;> exact ⟨n - 1, by omega⟩
  match p with
  | .text _ | .number _ | .vector _ _ _ | .item _ | .sound _ _ _ | .particle _ | .variable _ _
  | .gameValue _ _ | .tag _ _ _ _ => rfl
  | .location _ _ none => rfl
  | .location _ _ (some _) => rfl
  | .potion effect duration amplifier =>
    rw [Parameter.toData, ofData?_potion, natBelow?_integer hsized.1, natBelow?_integer hsized.2]
    rfl
  | .list items =>
    simp only [Parameter.toData, nesting_tagged, fieldNesting, Data.nesting] at hn
    rw [Parameter.toData, ofData?_list, parametersToData_mapM items hsized (by omega)]
    rfl
  | .dict entries =>
    simp only [Parameter.toData, nesting_tagged, fieldNesting, Data.nesting] at hn
    rw [Parameter.toData, ofData?_dict, entriesToData_mapM entries hsized (by omega)]
    rfl

theorem parametersToData_mapM (items : List Parameter) (hsized : SizedParameters items) {n : Nat}
    (hn : nestingOf (parametersToData items) ≤ n) :
    (parametersToData items).mapM (Parameter.ofData? n) = some items := by
  match items with
  | [] => rfl
  | p :: rest =>
    simp only [parametersToData, nestingOf, Nat.max_le] at hn
    rw [parametersToData, List.mapM_cons, p.ofData?_toData hsized.1 hn.1,
      parametersToData_mapM rest hsized.2 hn.2]
    rfl

theorem entriesToData_mapM (entries : List (String × Parameter)) (hsized : SizedEntries entries)
    {n : Nat} (hn : nestingOf (entriesToData entries) ≤ n) :
    (entriesToData entries).mapM (Parameter.ofData?.keyed? (Parameter.ofData? n)) =
      some entries := by
  match entries with
  | [] => rfl
  | (key, p) :: rest =>
    simp only [entriesToData, nestingOf, Data.nesting, fieldNesting, Nat.max_le] at hn
    rw [entriesToData, List.mapM_cons, keyed?_object, p.ofData?_toData hsized.1 (by omega),
      entriesToData_mapM rest hsized.2 hn.2]
    rfl

end

theorem mapM_map_of_inverse {α : Type} {write : α → Data} {read? : Data → Option α} {xs : List α}
    (h : ∀ x ∈ xs, read? (write x) = some x) : (xs.map write).mapM read? = some xs := by
  induction xs with
  | nil => rfl
  | cons x xs ih =>
    rw [List.map_cons, List.mapM_cons, h x (by simp), ih fun y hy => h y (by simp [hy])]
    rfl

/-- Every item of an array nests less deep than the array. -/
theorem nesting_le_of_mem {α : Type} (write : α → Data) {xs : List α} {x : α} (hx : x ∈ xs) :
    (write x).nesting ≤ nestingOf (xs.map write) := by
  induction hx with
  | head => simp [nestingOf]
  | tail _ _ ih => exact Nat.le_trans ih (Nat.le_max_right _ _)

theorem Slot.ofData?_toData (s : Slot) (hslot : s.slot < UInt64.size) (hsized : s.item.Sized)
    (hn : s.toData.nesting ≤ readingDepth) : Slot.ofData? s.toData = some s := by
  have hitem : s.item.toData.nesting ≤ readingDepth := by
    simp only [Slot.toData, Data.nesting, fieldNesting] at hn
    omega
  have hread : Slot.ofData? s.toData = (Parameter.ofData? readingDepth s.item.toData).bind
      fun item => ((Data.integer s.slot).natBelow? UInt64.size).bind
        fun slot => some ⟨item, slot⟩ := rfl
  rw [hread, Parameter.ofData?_toData _ hsized hitem, natBelow?_integer hslot]
  rfl

theorem fieldsNamed_cons (name key : String) (d : Data) (fields : List (String × Data)) :
    fieldsNamed name ((key, d) :: fields) =
      if key = name then d :: fieldsNamed name fields else fieldsNamed name fields := by
  by_cases h : key = name <;> simp [fieldsNamed, h]

theorem fieldsNamed_optionalField (key name : String) (value : Option String)
    (fields : List (String × Data)) :
    fieldsNamed name (optionalField key value ++ fields) =
      (if key = name then (value.map Data.text).toList else []) ++ fieldsNamed name fields := by
  cases value with
  | none => simp [optionalField]
  | some s => by_cases h : key = name <;> simp [optionalField, fieldsNamed_cons, h]

/-- An optional field is found with its value, if it has one. -/
theorem objectValues?_optional {name : String} {names : List String}
    {fields : List (String × Data)} (value : Option String)
    (h : fieldsNamed name fields = (value.map Data.text).toList) :
    objectValues? (name :: names) fields =
      (objectValues? names fields).map (value.map Data.text :: ·) := by
  cases value <;> simp [objectValues?, h]

theorem optionalText?_map (value : Option String) :
    optionalText? (value.map Data.text) = some value := by
  cases value <;> rfl

namespace CodeBlock

def argsData (b : CodeBlock) : Data := .object [("items", .array (b.items.map Slot.toData))]

/-- The fields of a code block without its tag. -/
def fields (b : CodeBlock) : List (String × Data) :=
  ("block", .text b.block) :: ("args", b.argsData) ::
    (optionalField "action" b.action ++ (optionalField "subAction" b.subAction ++
      (optionalField "data" b.data ++ (optionalField "target" b.target ++
        (optionalField "inverted" b.inverted ++ [])))))

theorem toData_eq (b : CodeBlock) : b.toData = .object (("id", .text "block") :: b.fields) := by
  simp [toData, fields, argsData]

theorem fieldsNamed_fields (b : CodeBlock) (name : String) : fieldsNamed name b.fields =
    let rest := (if "action" = name then (b.action.map Data.text).toList else []) ++
      ((if "subAction" = name then (b.subAction.map Data.text).toList else []) ++
        ((if "data" = name then (b.data.map Data.text).toList else []) ++
          ((if "target" = name then (b.target.map Data.text).toList else []) ++
            ((if "inverted" = name then (b.inverted.map Data.text).toList else []) ++ []))))
    let rest := if "args" = name then b.argsData :: rest else rest
    if "block" = name then .text b.block :: rest else rest := by
  simp only [fields, fieldsNamed_cons, fieldsNamed_optionalField]
  rfl

theorem splitTag?_toData (b : CodeBlock) :
    splitTag? b.toData = some ("block", .object b.fields) := by
  have hid : fieldsNamed "id" (("id", .text "block") :: b.fields) = [.text "block"] := by
    simp [fieldsNamed_cons, fieldsNamed_fields]
  have hkeys : ∀ f ∈ b.fields, (f.1 != "id") = true := by
    have hnone : fieldsNamed "id" b.fields = [] := by simp [fieldsNamed_fields]
    simpa [fieldsNamed] using hnone
  rw [toData_eq, splitTag?, hid]
  simp [List.filter_eq_self.2 hkeys]

theorem objectValues?_fields (b : CodeBlock) :
    objectValues? ["block", "args", "action", "subAction", "data", "target", "inverted"] b.fields =
      some [some (.text b.block), some b.argsData, b.action.map .text, b.subAction.map .text,
        b.data.map .text, b.target.map .text, b.inverted.map .text] := by
  rw [objectValues?, fieldsNamed_fields, objectValues?, fieldsNamed_fields,
    objectValues?_optional b.action, objectValues?_optional b.subAction,
    objectValues?_optional b.data, objectValues?_optional b.target,
    objectValues?_optional b.inverted]
  · simp [objectValues?]
  all_goals simp [fieldsNamed_fields]

theorem ofData?_fields (b : CodeBlock)
    (hitems : (b.items.map Slot.toData).mapM Slot.ofData? = some b.items) :
    ofData? (.object b.fields) = some b := by
  have hslots : slots? (some b.argsData) = (b.items.map Slot.toData).mapM Slot.ofData? := rfl
  simp only [ofData?, Data.fields?, objectValues?_fields, optionalText?_map, hslots, hitems,
    Data.text?, Option.bind_eq_bind, Option.bind_some]
  rfl

end CodeBlock

theorem nesting_le_of_field {fields : List (String × Data)}
    {f : String × Data} (h : f ∈ fields) : f.2.nesting ≤ fieldNesting fields := by
  induction fields with
  | nil => cases h
  | cons g fields ih =>
    cases h with
    | head => exact Nat.le_max_left _ _
    | tail _ h => exact Nat.le_trans (ih h) (Nat.le_max_right _ _)

/-- What a record needs to be read back from data. -/
theorem Record.ofData?_toData (r : Record)
    (hsized : ∀ s ∈ r.slots, s.slot < UInt64.size ∧ s.item.Sized)
    (hn : r.toData.nesting ≤ readingDepth) : Record.ofData? r.toData = some r := by
  cases r with
  | bracket side type => cases side <;> cases type <;> rfl
  | block b =>
    have hnesting : nestingOf (b.items.map Slot.toData) ≤ readingDepth := by
      have hargs : b.argsData.nesting ≤ fieldNesting b.fields :=
        nesting_le_of_field (f := ("args", b.argsData)) (by simp [CodeBlock.fields])
      rw [Record.toData, CodeBlock.toData_eq, Data.nesting] at hn
      simp only [CodeBlock.argsData, Data.nesting, fieldNesting] at hargs hn
      omega
    have hitems : (b.items.map Slot.toData).mapM Slot.ofData? = some b.items := by
      apply mapM_map_of_inverse
      intro s hs
      obtain ⟨hslot, hitem⟩ := hsized s hs
      exact s.ofData?_toData hslot hitem (Nat.le_trans (nesting_le_of_mem _ hs) hnesting)
    rw [Record.ofData?, Record.toData, b.splitTag?_toData]
    simp [b.ofData?_fields hitems]

namespace Document

theorem toData_readable (d : Document) (hreals : d.Finite) (hsized : d.Sized) :
    d.toData.Readable := by
  have hslots : ∀ s ∈ d.slots, s.toData.Readable := by
    intro s hs
    obtain ⟨hslot, hitem⟩ := hsized s hs
    have hreads : ∀ x ∈ s.item.reals, x.isFinite = true :=
      fun x hx => hreals x (List.mem_flatMap.2 ⟨s, hs, hx⟩)
    exact ⟨s.item.toData_readable hreads hitem, readable_word hslot (by decide), trivial⟩
  refine ⟨(readableList_map _ _).2 fun r hr => ?_, trivial⟩
  cases r with
  | bracket side type => simp [Record.toData, Data.Readable, ReadableFields]
  | block b =>
    have hitems : ReadableList (b.items.map Slot.toData) :=
      (readableList_map _ _).2 fun s hs => hslots s (List.mem_flatMap.2 ⟨_, hr, hs⟩)
    simp only [Record.toData, CodeBlock.toData, Data.Readable, readableFields_append,
      readable_optionalField, and_true]
    simp [ReadableFields, Data.Readable, hitems]

/-- Reading gives a document back unless its text nests too deep. -/
theorem ofTerm?_term (d : Document) (hreals : d.Finite) (hsized : d.Sized) :
    Document.ofTerm? d.toData.term =
      if d.toData.nesting ≤ readingDepth then some d else none := by
  have hreadable := d.toData_readable hreals hsized
  have hblocks : blocks? d.toData.term = some (Data.array (d.blocks.map Record.toData)).term := rfl
  have hnesting : d.toData.nesting = (Data.array (d.blocks.map Record.toData)).nesting + 1 := by
    simp [Document.toData, Data.nesting, fieldNesting]
  rw [ofTerm?, hblocks, Option.bind_eq_bind, Option.bind_some, Data.term_toData? _ hreadable.1,
    hnesting]
  by_cases h : (Data.array (d.blocks.map Record.toData)).nesting ≤ readingDepth - 1
  · have hrecords : (d.blocks.map Record.toData).mapM Record.ofData? = some d.blocks := by
      apply mapM_map_of_inverse
      intro r hr
      have hle := nesting_le_of_mem Record.toData hr
      rw [Data.nesting] at h
      exact r.ofData?_toData (fun s hs => hsized s (List.mem_flatMap.2 ⟨r, hr, hs⟩)) (by omega)
    rw [if_pos h, if_pos (by rw [readingDepth] at h ⊢; omega)]
    simp [Data.array?, hrecords]
  · rw [if_neg h, if_neg (by rw [readingDepth] at h ⊢; omega)]
    rfl

/-- The text of a document, in any style and with blanks after it, is read as the document unless
it nests too deep. -/
theorem parse?_render {style : Style} (hstyle : style.Blank) (d : Document) (hreals : d.Finite)
    (hsized : d.Sized) {blanks : List Char} (hblanks : ∀ c ∈ blanks, isBlank c = true) :
    Document.parse? (d.render style ++ String.ofList blanks) =
      if d.toData.nesting ≤ readingDepth then some d else none := by
  have hterm := d.toData.parse?_chars hstyle (d.toData_readable hreals hsized) hblanks
  rw [Document.parse?, Document.render, Data.render, String.toList_append, String.toList_ofList,
    String.toList_ofList, hterm, Option.bind_eq_bind, Option.bind_some,
    d.ofTerm?_term hreals hsized]

end Document

end BlockTemplate
