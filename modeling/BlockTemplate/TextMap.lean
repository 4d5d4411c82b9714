/-! Finite maps from texts. The rows are kept in the order of their keys, so that a map is known by
what is found in it. -/
namespace BlockTemplate

structure TextMap (α : Type) where
  rows : List (String × α)
  sorted : rows.Pairwise (fun a b => a.1 < b.1)
  deriving DecidableEq

namespace TextMap
variable {α β : Type}

def empty : TextMap α := ⟨[], .nil⟩

def insertRow (key : String) (a : α) : List (String × α) → List (String × α)
  | [] => [(key, a)]
  | row :: rest =>
    if key < row.1 then (key, a) :: row :: rest
    else if key = row.1 then (key, a) :: rest
    else row :: insertRow key a rest

theorem mem_insertRow {key : String} {a : α} {row : String × α} {rows : List (String × α)}
    (h : row ∈ insertRow key a rows) : row = (key, a) ∨ row ∈ rows := by
  induction rows with
  | nil => exact .inl (List.mem_singleton.1 h)
  | cons first rest ih =>
    rw [insertRow] at h
    split at h
    · exact List.mem_cons.1 h
    · split at h
      · exact (List.mem_cons.1 h).imp_right (List.mem_cons_of_mem first)
      · obtain rfl | h := List.mem_cons.1 h
        · exact .inr List.mem_cons_self
        · exact (ih h).imp_right (List.mem_cons_of_mem first)

theorem sorted_insertRow (key : String) (a : α) {rows : List (String × α)}
    (h : rows.Pairwise fun a b => a.1 < b.1) :
    (insertRow key a rows).Pairwise fun a b => a.1 < b.1 := by
  induction rows with
  | nil => exact List.pairwise_singleton _ _
  | cons first rest ih =>
    obtain ⟨hfirst, hrest⟩ := List.pairwise_cons.1 h
    rw [insertRow]
    split
    · next hlt =>
      refine List.pairwise_cons.2 ⟨List.forall_mem_cons.2 ⟨hlt, fun row hrow => ?_⟩, h⟩
      exact String.lt_trans hlt (hfirst row hrow)
    · next hge =>
      split
      · next heq =>
        subst heq
        exact List.pairwise_cons.2 ⟨hfirst, hrest⟩
      · next hne =>
        refine List.pairwise_cons.2 ⟨fun row hrow => ?_, ih hrest⟩
        obtain rfl | hrow := mem_insertRow hrow
        · obtain hlt | heq | hgt := Std.lt_trichotomy key first.1
          · exact absurd hlt hge
          · exact absurd heq hne
          · exact hgt
        · exact hfirst row hrow

def insert (m : TextMap α) (key : String) (a : α) : TextMap α :=
  ⟨insertRow key a m.rows, sorted_insertRow key a m.sorted⟩

def find? (m : TextMap α) (key : String) : Option α := m.rows.lookup key

def keys (m : TextMap α) : List String := m.rows.map (·.1)

def size (m : TextMap α) : Nat := m.rows.length

/-- Puts the rows of another map in, each combined with what is found under its key. -/
def absorb (combine : Option α → β → α) (m : TextMap α) (other : TextMap β) : TextMap α :=
  other.rows.foldl (fun m row => m.insert row.1 (combine (m.find? row.1) row.2)) m

def extend (m other : TextMap α) : TextMap α := m.absorb (fun _ a => a) other

end TextMap
end BlockTemplate
