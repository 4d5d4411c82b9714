import BlockTemplate.Proofs.Outcome
import BlockTemplate.Proofs.TextMap
import BlockTemplate.Schema.Builtin
import BlockTemplate.Schema.Toml

/-! Schema tables hold checked schemas, each under its own block and name, whatever texts they were
read from and however they were put together. -/
namespace BlockTemplate.SchemaTable

/-- Tables made by reading texts, by merging and by inserting, accepted or not. -/
inductive Built : SchemaTable → Prop
  | empty : Built .empty
  | parse {s : String} {t : SchemaTable} (h : SchemaTable.parse s = .ok t) : Built t
  | insert {t : SchemaTable} (ht : Built t) (s : ActionSchema) : Built (t.insert s).2
  | merge {t u : SchemaTable} (ht : Built t) (hu : Built u) : Built (t.merge u)

/-- A schema as it should be stored under a block and the name of an action. -/
structure Fits (block action : String) (s : ActionSchema) : Prop where
  checked : s.check = .ok ()
  block : s.block = block
  name : s.name = action

def Checked (t : SchemaTable) : Prop :=
  ∀ block action s, t.lookup block action = some s → Fits block action s

section Lookup
variable (t u : SchemaTable) (s : ActionSchema) (block action : String)

theorem lookup_put : (t.put s).lookup block action =
    if s.block = block ∧ s.name = action then some s else t.lookup block action := by
  rw [lookup, lookup, put, TextMap.find?_insert]
  by_cases hblock : block = s.block
  · subst hblock
    by_cases hname : action = s.name
    · simp [hname]
    · cases t.blocks.find? s.block <;> simp [hname, Ne.symm hname]
  · simp [hblock, Ne.symm hblock]

/-- Entries of the table that is merged in win. -/
theorem lookup_merge : (t.merge u).lookup block action =
    (u.lookup block action).or (t.lookup block action) := by
  rw [lookup, lookup, lookup, merge, TextMap.find?_absorb]
  cases u.blocks.find? block with
  | none => simp
  | some actions => cases t.blocks.find? block <;> simp

end Lookup

section Insert
variable {t u : SchemaTable} {s : ActionSchema} {schemas : List ActionSchema}

theorem insert_of_ok (h : s.check = .ok ()) : t.insert s = (.ok (), t.put s) := by
  rw [insert, h]

theorem insert_of_error {fault : SchemaFault} (h : s.check = .error fault) :
    t.insert s = (.error ⟨s.block, s.name, fault⟩, t) := by
  rw [insert, h]

theorem insert_accepted_iff : (t.insert s).1 = .ok () ↔ s.check = .ok () := by
  cases h : s.check with
  | ok => simp [insert_of_ok h]
  | error fault => simp [insert_of_error h]

theorem insert_refused {e : InvalidSchema} (h : (t.insert s).1 = .error e) :
    (t.insert s).2 = t := by
  cases hcheck : s.check with
  | ok =>
    rw [insert_of_ok hcheck] at h
    cases h
  | error fault => rw [insert_of_error hcheck]

theorem insertAll_eq_ok : t.insertAll schemas = .ok u ↔
    (∀ s ∈ schemas, s.check = .ok ()) ∧ u = t.putAll schemas := by
  induction schemas generalizing t with
  | nil => simp [insertAll, putAll, eq_comm]
  | cons s rest ih =>
    rw [insertAll, List.forall_mem_cons, putAll, List.foldl_cons, ← putAll]
    cases hcheck : s.check with
    | ok => simp [insert_of_ok hcheck, ih]
    | error fault => simp [insert_of_error hcheck]

theorem parse_eq_ok {text : String} : SchemaTable.parse text = .ok u ↔ ∃ schemas,
    (Toml.parse? text).bind schemasOfToml? = some schemas ∧
      SchemaTable.empty.insertAll schemas = .ok u := by
  rw [SchemaTable.parse]
  cases hread : (Toml.parse? text).bind schemasOfToml? with
  | none => simp [throw, throwThe, MonadExceptOf.throw]
  | some schemas =>
    cases hinserted : SchemaTable.empty.insertAll schemas with
    | ok table => simp [hinserted, pure, Except.pure]
    | error e => simp [hinserted, throw, throwThe, MonadExceptOf.throw]

end Insert

namespace Checked
variable {t u : SchemaTable} {s : ActionSchema}

theorem empty : SchemaTable.empty.Checked := nofun

theorem put (ht : t.Checked) (h : s.check = .ok ()) : (t.put s).Checked := by
  intro block action other hother
  rw [lookup_put] at hother
  split at hother
  · next hkey =>
    cases hother
    exact ⟨h, hkey.1, hkey.2⟩
  · exact ht block action other hother

theorem insert (ht : t.Checked) (s : ActionSchema) : (t.insert s).2.Checked := by
  cases hcheck : s.check with
  | ok =>
    rw [insert_of_ok hcheck]
    exact ht.put hcheck
  | error fault =>
    rw [insert_of_error hcheck]
    exact ht

theorem putAll (ht : t.Checked) {schemas : List ActionSchema}
    (h : ∀ s ∈ schemas, s.check = .ok ()) : (t.putAll schemas).Checked := by
  induction schemas generalizing t with
  | nil => exact ht
  | cons s rest ih =>
    obtain ⟨hs, hrest⟩ := List.forall_mem_cons.1 h
    exact ih (ht.put hs) hrest

theorem parse {text : String} (h : SchemaTable.parse text = .ok t) : t.Checked := by
  obtain ⟨schemas, _, hinserted⟩ := parse_eq_ok.1 h
  obtain ⟨hchecks, rfl⟩ := insertAll_eq_ok.1 hinserted
  exact empty.putAll hchecks

theorem merge (ht : t.Checked) (hu : u.Checked) : (t.merge u).Checked := by
  intro block action s hs
  rw [lookup_merge, Option.or_eq_some_iff] at hs
  obtain hs | ⟨_, hs⟩ := hs
  · exact hu block action s hs
  · exact ht block action s hs

end Checked

theorem Built.checked {t : SchemaTable} (h : t.Built) : t.Checked := by
  induction h with
  | empty => exact .empty
  | parse h => exact .parse h
  | insert _ s ih => exact ih.insert s
  | merge _ _ iht ihu => exact iht.merge ihu

/-- None of the schemas that come with the program is refused. -/
theorem insertAll_builtin :
    SchemaTable.empty.insertAll Schema.Builtin.schemas = .ok Schema.Builtin.table :=
  insertAll_eq_ok.2 ⟨by decide +kernel, rfl⟩

end BlockTemplate.SchemaTable
