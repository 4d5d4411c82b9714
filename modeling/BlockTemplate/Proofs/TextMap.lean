import BlockTemplate.TextMap
import Mathlib.Data.List.Nodup
import Mathlib.Data.List.Perm.Basic

/-! Maps from texts are known by what is found in them: what was put last under a key, and what was
there before under the others. -/
namespace BlockTemplate.TextMap
variable {α β : Type}

@[simp] theorem find?_empty (key : String) : (empty : TextMap α).find? key = none := rfl

theorem lookup_row (row : String × α) (rest : List (String × α)) (key : String) :
    (row :: rest).lookup key = if key = row.1 then some row.2 else rest.lookup key := by
  obtain ⟨k, a⟩ := row
  by_cases h : key = k
  · rw [if_pos h, List.lookup_cons, h, beq_self_eq_true]
  · rw [if_neg h, List.lookup_cons, beq_false_of_ne h]

theorem lookup_insertRow (key : String) (a : α) (rows : List (String × α)) (k : String) :
    (insertRow key a rows).lookup k = if k = key then some a else rows.lookup k := by
  induction rows with
  | nil => rw [insertRow, lookup_row]
  | cons first rest ih =>
    rw [insertRow]
    split
    · rw [lookup_row]
    · split
      · next heq =>
        rw [lookup_row, lookup_row, heq]
        split <;> rfl
      · next hne =>
        rw [lookup_row, ih, lookup_row]
        by_cases hk : k = first.1
        · have hkey : k ≠ key := fun h => hne (h.symm.trans hk)
          rw [if_pos hk, if_neg hkey, if_pos hk]
        · rw [if_neg hk, if_neg hk]

@[simp] theorem find?_insert (m : TextMap α) (key : String) (a : α) (k : String) :
    (m.insert key a).find? k = if k = key then some a else m.find? k :=
  lookup_insertRow key a m.rows k

/-- The rows that follow have other keys. -/
theorem lookup_of_sorted {row : String × α} {rest : List (String × α)}
    (h : (row :: rest).Pairwise fun a b => a.1 < b.1) : rest.lookup row.1 = none := by
  refine List.lookup_eq_none_iff.2 fun other hother => ?_
  have hlt := List.rel_of_pairwise_cons h hother
  exact bne_iff_ne.2 fun heq => String.lt_irrefl _ (heq ▸ hlt)

theorem find?_eq_some_iff {m : TextMap α} {key : String} {a : α} :
    m.find? key = some a ↔ (key, a) ∈ m.rows := by
  obtain ⟨rows, hsorted⟩ := m
  change rows.lookup key = some a ↔ (key, a) ∈ rows
  induction rows with
  | nil => simp
  | cons row rest ih =>
    have hrest := ih hsorted.of_cons
    rw [lookup_row, List.mem_cons, Prod.ext_iff, ← hrest]
    by_cases hkey : key = row.1
    · simp [hkey, lookup_of_sorted hsorted, eq_comm]
    · simp [hkey]

theorem keys_sorted (m : TextMap α) : m.keys.Pairwise (· < ·) := List.pairwise_map.2 m.sorted

theorem keys_nodup (m : TextMap α) : m.keys.Nodup := by
  refine m.keys_sorted.imp fun hlt heq => ?_
  subst heq
  exact String.lt_irrefl _ hlt

/-- Two maps in which the same is found are the same. -/
theorem eq_of_find? {m n : TextMap α} (h : ∀ key, m.find? key = n.find? key) : m = n := by
  have hrows : ∀ row : String × α, row ∈ m.rows ↔ row ∈ n.rows := fun row => by
    rw [← find?_eq_some_iff, ← find?_eq_some_iff, h]
  have hnodup : ∀ l : TextMap α, l.rows.Nodup := fun l => List.Nodup.of_map _ l.keys_nodup
  have hperm := (List.perm_ext_iff_of_nodup (hnodup m) (hnodup n)).2 hrows
  have heq : m.rows = n.rows := hperm.eq_of_pairwise
    (fun a b _ _ hab hba => absurd hab (String.lt_asymm hba)) m.sorted n.sorted
  cases m
  cases n
  congr

theorem find?_foldl_insert (combine : Option α → β → α) {rows : List (String × β)}
    (h : rows.Pairwise fun a b => a.1 < b.1) (m : TextMap α) (key : String) :
    (rows.foldl (fun m row => m.insert row.1 (combine (m.find? row.1) row.2)) m).find? key =
      ((rows.lookup key).map (combine (m.find? key))).or (m.find? key) := by
  induction rows generalizing m with
  | nil => rfl
  | cons row rest ih =>
    rw [List.foldl_cons, ih h.of_cons, find?_insert, lookup_row]
    by_cases hkey : key = row.1
    · simp [hkey, lookup_of_sorted h]
    · simp [hkey]

theorem find?_absorb (combine : Option α → β → α) (m : TextMap α) (other : TextMap β)
    (key : String) : (m.absorb combine other).find? key =
      ((other.find? key).map (combine (m.find? key))).or (m.find? key) :=
  find?_foldl_insert combine other.sorted m key

@[simp] theorem find?_extend (m other : TextMap α) (key : String) :
    (m.extend other).find? key = (other.find? key).or (m.find? key) := by
  rw [extend, find?_absorb, Option.map_id']

@[simp] theorem extend_self (m : TextMap α) : m.extend m = m :=
  eq_of_find? fun key => by rw [find?_extend, Option.or_self]

@[simp] theorem empty_extend (m : TextMap α) : (empty : TextMap α).extend m = m :=
  eq_of_find? fun key => by rw [find?_extend, find?_empty, Option.or_none]

theorem extend_assoc (m n l : TextMap α) : (m.extend n).extend l = m.extend (n.extend l) :=
  eq_of_find? fun key => by simp only [find?_extend, Option.or_assoc]

end BlockTemplate.TextMap
