/-! Lists whose entries have distinct keys. What is found under a key does not depend on the order
of the entries. -/
namespace BlockTemplate
variable {α κ : Type} [BEq κ] [LawfulBEq κ] {key : α → κ} {l l' : List α} {k : κ} {a : α}

theorem find?_key_of_mem (h : (l.map key).Nodup) (ha : a ∈ l) :
    l.find? (fun x => key x == key a) = some a := by
  induction l with
  | nil => cases ha
  | cons first rest ih =>
    rw [List.map_cons, List.nodup_cons] at h
    obtain ⟨hfirst, hrest⟩ := h
    obtain rfl | ha := List.mem_cons.1 ha
    · exact List.find?_cons_of_pos (beq_self_eq_true _)
    · have hne : key first ≠ key a := fun heq => by
        rw [heq] at hfirst
        exact hfirst (List.mem_map_of_mem ha)
      rw [List.find?_cons_of_neg (by simpa using hne)]
      exact ih hrest ha

theorem find?_key_iff (h : (l.map key).Nodup) :
    l.find? (fun x => key x == k) = some a ↔ a ∈ l ∧ key a = k := by
  constructor
  · intro hfind
    have hkey := List.find?_some hfind
    exact ⟨List.mem_of_find?_eq_some hfind, eq_of_beq hkey⟩
  · rintro ⟨ha, rfl⟩
    exact find?_key_of_mem h ha

theorem find?_key_perm (hperm : l.Perm l') (h : (l.map key).Nodup) (k : κ) :
    l.find? (fun x => key x == k) = l'.find? (fun x => key x == k) := by
  have h' : (l'.map key).Nodup := (hperm.map key).nodup h
  refine Option.ext fun a => ?_
  rw [find?_key_iff h, find?_key_iff h', hperm.mem_iff]

end BlockTemplate
