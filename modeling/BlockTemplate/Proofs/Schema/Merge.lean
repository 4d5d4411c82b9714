import BlockTemplate.Proofs.Schema.Table
import Mathlib.Data.List.Induction

/-! Schema tables as maps of two levels. A table is known by what is found in it; inserting, merging
and reading are laws about that. -/
namespace BlockTemplate.SchemaTable

/-- All rows: each schema with the block and action that it is stored under. -/
def entries (t : SchemaTable) : List ((String × String) × ActionSchema) :=
  t.blocks.rows.flatMap fun b => b.2.rows.map fun a => ((b.1, a.1), a.2)

def keys (t : SchemaTable) : List (String × String) := t.entries.map (·.1)

section Entries
variable {t : SchemaTable} {block action : String}

theorem lookup_eq_some_iff {s : ActionSchema} :
    t.lookup block action = some s ↔ ((block, action), s) ∈ t.entries := by
  simp only [lookup, entries, Option.bind_eq_some_iff, TextMap.find?_eq_some_iff, List.mem_flatMap,
    List.mem_map, Prod.mk.injEq]
  constructor
  · rintro ⟨actions, hblock, haction⟩
    exact ⟨_, hblock, _, haction, ⟨rfl, rfl⟩, rfl⟩
  · rintro ⟨⟨_, actions⟩, hblock, ⟨_, _⟩, haction, ⟨rfl, rfl⟩, rfl⟩
    exact ⟨actions, hblock, haction⟩

theorem mem_keys_iff : (block, action) ∈ t.keys ↔ (t.lookup block action).isSome = true := by
  simp [keys, Option.isSome_iff_exists, lookup_eq_some_iff]

theorem size_eq_length_keys (t : SchemaTable) : t.size = t.keys.length := by
  have hsum : ∀ (rows : List (String × TextMap ActionSchema)) (n : Nat),
      rows.foldl (fun n b => n + b.2.size) n = n + (rows.flatMap (·.2.rows)).length := by
    intro rows
    induction rows with
    | nil => exact fun n => rfl
    | cons b rest ih =>
      intro n
      rw [List.foldl_cons, ih, List.flatMap_cons, List.length_append, TextMap.size, Nat.add_assoc]
  rw [size, hsum, Nat.zero_add]
  simp [keys, entries, List.length_flatMap]

/-- A key is in the rows of its block only, and there once. -/
theorem keys_nodup (t : SchemaTable) : t.keys.Nodup := by
  have hkeys :
      t.keys = t.blocks.rows.flatMap fun b => b.2.keys.map fun action => (b.1, action) := by
    simp [keys, entries, TextMap.keys, List.map_flatMap, Function.comp_def]
  rw [hkeys, List.nodup_flatMap]
  refine ⟨fun b _ => ?_, t.blocks.sorted.imp fun {b c} hlt => ?_⟩
  · exact b.2.keys_nodup.map fun _ _ heq => (Prod.mk.inj heq).2
  · intro key hb hc
    obtain ⟨_, _, rfl⟩ := List.mem_map.1 hb
    obtain ⟨_, _, heq⟩ := List.mem_map.1 hc
    exact String.lt_irrefl _ ((Prod.mk.inj heq).1 ▸ hlt)

end Entries

section Merge
variable (t u v : SchemaTable)

theorem find?_merge (block : String) : (t.merge u).blocks.find? block =
    ((u.blocks.find? block).map ((t.blocks.find? block).getD .empty).extend).or
      (t.blocks.find? block) :=
  TextMap.find?_absorb _ t.blocks u.blocks block

theorem eq_of_blocks {t u : SchemaTable}
    (h : ∀ block, t.blocks.find? block = u.blocks.find? block) : t = u := by
  obtain ⟨blocks⟩ := t
  obtain ⟨others⟩ := u
  exact congrArg mk (TextMap.eq_of_find? h)

theorem merge_self : t.merge t = t := by
  refine eq_of_blocks fun block => ?_
  rw [find?_merge]
  cases t.blocks.find? block <;> simp

theorem merge_assoc : (t.merge u).merge v = t.merge (u.merge v) := by
  refine eq_of_blocks fun block => ?_
  simp only [find?_merge]
  cases t.blocks.find? block <;> cases u.blocks.find? block <;> cases v.blocks.find? block <;>
    simp [TextMap.extend_assoc]

/-- To merge in a table of one entry is to put the entry. -/
theorem merge_empty_put (s : ActionSchema) : t.merge (empty.put s) = t.put s := rfl

end Merge

/-- Reading schemas one after another is merging tables of one entry each. -/
theorem insertAll_eq_ok_iff_merge {schemas : List ActionSchema} {u : SchemaTable} :
    empty.insertAll schemas = .ok u ↔ (∀ s ∈ schemas, (empty.insert s).1 = .ok ()) ∧
      u = (schemas.map fun s => (empty.insert s).2).foldl merge empty := by
  simp only [insertAll_eq_ok, insert_accepted_iff, List.foldl_map]
  refine and_congr_right fun hchecks => ?_
  have hputs : ∀ t : SchemaTable, schemas.foldl (fun t s => t.merge (empty.insert s).2) t =
      t.putAll schemas := fun t =>
    List.foldl_ext _ _ t fun t s hs => by rw [insert_of_ok (hchecks s hs), merge_empty_put]
  rw [hputs]

/-- The table after a series of insertions, those that are refused included. -/
def inserted (t : SchemaTable) (schemas : List ActionSchema) : SchemaTable :=
  schemas.foldl (fun t s => (t.insert s).2) t

theorem Built.inserted {t : SchemaTable} (ht : t.Built) (schemas : List ActionSchema) :
    (t.inserted schemas).Built := by
  induction schemas generalizing t with
  | nil => exact ht
  | cons s rest ih => exact ih (ht.insert s)

/-- The schema is accepted, and stored under this block and action. -/
def enters (block action : String) (s : ActionSchema) : Bool :=
  s.check.isOk && s.block == block && s.name == action

theorem lookup_insert (t : SchemaTable) (s : ActionSchema) (block action : String) :
    (t.insert s).2.lookup block action =
      if enters block action s then some s else t.lookup block action := by
  cases hcheck : s.check with
  | ok =>
    rw [insert_of_ok hcheck, lookup_put]
    simp [enters, hcheck, Except.isOk, Except.toBool]
  | error fault =>
    rw [insert_of_error hcheck]
    simp [enters, hcheck, Except.isOk, Except.toBool]

theorem lookup_inserted (t : SchemaTable) (schemas : List ActionSchema) (block action : String) :
    (t.inserted schemas).lookup block action =
      (schemas.filter (enters block action)).getLast?.or (t.lookup block action) := by
  induction schemas using List.reverseRecOn with
  | nil => rfl
  | append_singleton schemas s ih =>
    have hlast : t.inserted (schemas ++ [s]) = ((t.inserted schemas).insert s).2 := by
      rw [inserted, List.foldl_append]
      rfl
    rw [hlast, lookup_insert, ih, List.filter_append]
    by_cases henters : enters block action s = true <;> simp [henters]

/-- The laws of tables, however they came about. What is stored is checked and under its own block
and name, and is what is found there. A refused insertion leaves the table as it was; of the schemas
inserted for a key the last that was accepted is found. In a merge the entries of the second table
win, so merging is associative and a table merged with itself stays the same. Reading a text is
merging the tables of its single entries. The size is the number of keys. -/
theorem laws_of_built {t : SchemaTable} (ht : t.Built) :
    (∀ block action s, ((block, action), s) ∈ t.entries →
      s.check = .ok () ∧ s.block = block ∧ s.name = action) ∧
    (∀ block action s, t.lookup block action = some s ↔ ((block, action), s) ∈ t.entries) ∧
    (∀ s, ((t.insert s).1 = .ok () ↔ s.check = .ok ()) ∧
      ∀ e, (t.insert s).1 = .error e → (t.insert s).2 = t) ∧
    (∀ schemas, (t.inserted schemas).Built ∧ ∀ block action,
      (t.inserted schemas).lookup block action =
        (schemas.filter (enters block action)).getLast?.or (t.lookup block action)) ∧
    (∀ u : SchemaTable, u.Built →
      (∀ block action, (t.merge u).lookup block action =
        (u.lookup block action).or (t.lookup block action)) ∧
      ∀ v : SchemaTable, v.Built → (t.merge u).merge v = t.merge (u.merge v)) ∧
    t.merge t = t ∧
    (∀ text schemas, (Toml.parse? text).bind schemasOfToml? = some schemas → ∀ u,
      SchemaTable.parse text = .ok u ↔ (∀ s ∈ schemas, (empty.insert s).1 = .ok ()) ∧
        u = (schemas.map fun s => (empty.insert s).2).foldl merge empty) ∧
    t.keys.Nodup ∧ t.size = t.keys.length ∧
      ∀ block action, (block, action) ∈ t.keys ↔ (t.lookup block action).isSome = true := by
  refine ⟨fun block action s hs => ?_, fun _ _ _ => lookup_eq_some_iff,
    fun s => ⟨insert_accepted_iff, fun _ => insert_refused⟩,
    fun schemas => ⟨ht.inserted schemas, t.lookup_inserted schemas⟩,
    fun u _ => ⟨t.lookup_merge u, fun v _ => t.merge_assoc u v⟩, t.merge_self,
    fun text schemas hread u => ?_, t.keys_nodup, t.size_eq_length_keys, fun _ _ => mem_keys_iff⟩
  · have hfits := ht.checked block action s (lookup_eq_some_iff.2 hs)
    exact ⟨hfits.checked, hfits.block, hfits.name⟩
  · rw [parse_eq_ok, ← insertAll_eq_ok_iff_merge]
    simp [hread]

def waitAny : ActionSchema := { block := "control", name := "Wait" }

def waitTicks : ActionSchema :=
  { waitAny with
    params := [{ kind := .number }]
    tags := [⟨"Time Unit", ["Ticks", "Seconds"], "Ticks"⟩] }

/-- The default is not an option. -/
def waitHours : ActionSchema :=
  { waitAny with tags := [⟨"Time Unit", ["Ticks", "Seconds"], "Hours"⟩] }

def waitText : String := "[[action]]\nblock = 'control'\nname = 'Wait'\n"

/-- The refused schema leaves the one before it in force; a text merged in takes its place. -/
theorem laws_of_built_wait : ∃ t u : SchemaTable, t.Built ∧ u.Built ∧
    t = empty.inserted [waitAny, waitTicks, waitHours] ∧
    SchemaTable.parse waitText = .ok u ∧
    t.entries = [(("control", "Wait"), waitTicks)] ∧
    (t.merge u).lookup "control" "Wait" = some waitAny ∧
    (t.merge u).merge t = t.merge (u.merge t) ∧ u.merge u = u := by
  obtain ⟨_, _, _, hinserts, _, _, hread, _⟩ := laws_of_built .empty
  obtain ⟨ht, _⟩ := hinserts [waitAny, waitTicks, waitHours]
  have htext : (Toml.parse? waitText).bind schemasOfToml? = some [waitAny] := by decide +kernel
  obtain ⟨u, hu⟩ : ∃ u, SchemaTable.parse waitText = .ok u :=
    ⟨_, (hread waitText [waitAny] htext _).2 ⟨by decide, rfl⟩⟩
  obtain ⟨_, _, _, _, hmerge, _⟩ := laws_of_built ht
  obtain ⟨hfound, hassoc⟩ := hmerge _ (.parse hu)
  obtain ⟨_, _, _, _, _, hself, _⟩ := laws_of_built (.parse hu)
  obtain ⟨_, rfl⟩ := (hread waitText [waitAny] htext u).1 hu
  refine ⟨_, _, ht, .parse hu, rfl, hu, by decide +kernel, ?_, hassoc _ ht, hself⟩
  rw [hfound]
  rfl

end BlockTemplate.SchemaTable
