import BlockTemplate.Proofs.TextMap
import BlockTemplate.Session.Declarations

/-! Two ways to find a declaration. By name it is found through the index of a frame, by name and
class through the declarations themselves. The index is right in every frame that comes up, and
then both ways agree. -/
namespace BlockTemplate

@[simp] theorem Declaration.ref_name (d : Declaration) : d.ref.name = d.name := rfl

namespace Frame
variable {f : Frame}

theorem declares_iff {v : VarRef} : f.declares v = true ↔ ∃ d ∈ f.declarations, d.ref = v := by
  simp [declares, find?]

theorem declares_insert {d : Declaration} {v : VarRef} :
    (f.insert d).declares v = true ↔ f.declares v = true ∨ d.ref = v := by
  simp [declares_iff, insert, or_and_right, exists_or]

/-- The index has the names that are declared and no others, each with the place of its latest
declaration. -/
def Indexed (f : Frame) : Prop :=
  ∀ name i, f.byName.find? name = some i ↔
    (∃ d, f.declarations[i]? = some d ∧ d.name = name) ∧
      ∀ j d, i < j → f.declarations[j]? = some d → d.name ≠ name

namespace Indexed

theorem empty : Indexed {} := by simp [Indexed]

/-- The new declaration is the latest of its name; for all others nothing changes. -/
theorem insert (h : f.Indexed) (d : Declaration) : (f.insert d).Indexed := by
  intro name i
  have hlast : (f.declarations ++ [d])[f.declarations.length]? = some d := by simp
  have hbefore : ∀ j, j < f.declarations.length →
      (f.declarations ++ [d])[j]? = f.declarations[j]? :=
    fun j hj => List.getElem?_append_left hj
  have hbound : ∀ {j x}, (f.declarations ++ [d])[j]? = some x → j ≤ f.declarations.length := by
    intro j x hget
    have hj := (List.getElem?_eq_some_iff.1 hget).1
    rw [List.length_append, List.length_singleton] at hj
    omega
  rw [Frame.insert, TextMap.find?_insert]
  by_cases hname : name = d.name
  · rw [if_pos hname, Option.some.injEq]
    constructor
    · rintro rfl
      refine ⟨⟨d, hlast, hname.symm⟩, fun j x hj hget => ?_⟩
      have hle := hbound hget
      omega
    · rintro ⟨⟨x, hget, _⟩, hlater⟩
      obtain hlt | heq := Nat.lt_or_eq_of_le (hbound hget)
      · exact absurd hname.symm (hlater _ d hlt hlast)
      · exact heq.symm
  · rw [if_neg hname, h name i]
    constructor
    · rintro ⟨⟨x, hget, hx⟩, hlater⟩
      have hi := (List.getElem?_eq_some_iff.1 hget).1
      refine ⟨⟨x, (hbefore i hi).trans hget, hx⟩, fun j y hj hy => ?_⟩
      obtain hlt | rfl := Nat.lt_or_eq_of_le (hbound hy)
      · exact hlater j y hj ((hbefore j hlt).symm.trans hy)
      · obtain rfl : d = y := Option.some.inj (hlast.symm.trans hy)
        exact Ne.symm hname
    · rintro ⟨⟨x, hget, hx⟩, hlater⟩
      obtain hlt | rfl := Nat.lt_or_eq_of_le (hbound hget)
      · refine ⟨⟨x, (hbefore i hlt).symm.trans hget, hx⟩, fun j y hj hy => ?_⟩
        have hj' := (List.getElem?_eq_some_iff.1 hy).1
        exact hlater j y hj ((hbefore j hj').trans hy)
      · obtain rfl : d = x := Option.some.inj (hlast.symm.trans hget)
        exact absurd hx.symm hname

/-- What the index leads to is the latest declaration of the name. -/
theorem get?_eq (h : f.Indexed) (name : String) :
    f.get? name = f.declarations.reverse.find? (·.name == name) := by
  refine Option.ext fun d => ?_
  rw [get?, Option.bind_eq_some_iff, List.find?_eq_some_iff_append]
  constructor
  · rintro ⟨i, hfind, hget⟩
    obtain ⟨⟨x, hx, hname⟩, hlater⟩ := (h name i).1 hfind
    obtain rfl : d = x := Option.some.inj (hget.symm.trans hx)
    obtain ⟨hi, hd⟩ := List.getElem?_eq_some_iff.1 hget
    have hsplit : f.declarations = f.declarations.take i ++ d :: f.declarations.drop (i + 1) := by
      rw [← hd, List.getElem_cons_drop, List.take_append_drop]
    refine ⟨by simpa using hname, (f.declarations.drop (i + 1)).reverse,
      (f.declarations.take i).reverse, ?_, fun y hy => ?_⟩
    · conv => lhs; rw [hsplit]
      simp
    · obtain ⟨j, hj⟩ := List.mem_iff_getElem?.1 (List.mem_reverse.1 hy)
      rw [List.getElem?_drop] at hj
      simpa using hlater _ y (by omega) hj
  · rintro ⟨hname, later, before, heq, hlater⟩
    have hsplit : f.declarations = before.reverse ++ d :: later.reverse := by
      simpa using congrArg List.reverse heq
    have hget : f.declarations[before.length]? = some d := by simp [hsplit]
    refine ⟨before.length, (h name _).2 ⟨⟨d, hget, by simpa using hname⟩, ?_⟩, hget⟩
    intro j x hj hx
    obtain ⟨k, rfl⟩ : ∃ k, j = before.length + (k + 1) := ⟨j - before.length - 1, by omega⟩
    rw [hsplit, List.getElem?_append_right (by simp), List.length_reverse,
      Nat.add_sub_cancel_left, List.getElem?_cons_succ] at hx
    simpa using hlater x (List.mem_reverse.1 (List.mem_of_getElem? hx))

end Indexed
end Frame

namespace Declarations
variable {d : Declarations}

theorem isVisible_iff {v : VarRef} :
    d.isVisible v = true ↔ ∃ f ∈ d.live, ∃ x ∈ f.declarations, x.ref = v := by
  simp only [isVisible, List.any_eq_true, Frame.declares_iff]

/-- What a name leads to is visible, whatever the index holds. -/
theorem isVisible_of_resolve? {name : String} {v : VarRef} (h : d.resolve? name = some v) :
    d.isVisible v = true := by
  obtain ⟨x, hfind, rfl⟩ := Option.map_eq_some_iff.1 h
  obtain ⟨f, hf, hfound⟩ := List.exists_of_findSome?_eq_some hfind
  obtain ⟨i, _, hget⟩ := Option.bind_eq_some_iff.1 hfound
  exact isVisible_iff.2 ⟨f, hf, x, List.mem_of_getElem? hget, rfl⟩

/-- The index is right in every frame, also in those that were left. -/
def Indexed (d : Declarations) : Prop := ∀ f ∈ d.live ++ d.retired, f.Indexed

namespace Indexed

theorem empty : Indexed empty := by
  simpa [Indexed, live, Declarations.empty] using Frame.Indexed.empty

variable (h : d.Indexed)
include h

theorem declare (name : String) (scope : VariableClass) (kind : Option Kind) :
    (d.declare name scope kind).Indexed := by
  have hframes := List.forall_mem_cons.1 h
  exact List.forall_mem_cons.2 ⟨hframes.1.insert _, hframes.2⟩

theorem enter : d.enter.Indexed := List.forall_mem_cons.2 ⟨.empty, h⟩

theorem exit : d.exit.Indexed := by
  unfold Declarations.exit
  split
  · exact h
  · next frame outer houter =>
    intro f hf
    refine h f ?_
    simp only [live, houter, List.mem_append, List.mem_cons, List.not_mem_nil, or_false] at hf ⊢
    obtain (hf | hf) | hf | hf := hf
    · exact .inl (.inr (.inl hf))
    · exact .inl (.inr (.inr hf))
    · exact .inr hf
    · exact .inl (.inl hf)

theorem find?_eq (name : String) : d.find? name =
    d.live.findSome? fun f => f.declarations.reverse.find? (·.name == name) := by
  have hmap := List.map_congr_left fun f hf => (h f (List.mem_append_left _ hf)).get?_eq name
  simpa [find?, List.findSome?_map, Function.comp_def] using congrArg (List.findSome? id) hmap

/-- A name refers to a variable of that name, which is visible. -/
theorem resolve?_eq_some {name : String} {v : VarRef} (hv : d.resolve? name = some v) :
    v.name = name ∧ d.isVisible v = true := by
  refine ⟨?_, isVisible_of_resolve? hv⟩
  obtain ⟨x, hfind, rfl⟩ := Option.map_eq_some_iff.1 hv
  rw [h.find?_eq] at hfind
  obtain ⟨f, _, hfound⟩ := List.exists_of_findSome?_eq_some hfind
  simpa using List.find?_some hfound

/-- A name refers to nothing exactly if no variable of that name is visible. -/
theorem resolve?_eq_none {name : String} :
    d.resolve? name = none ↔ ∀ scope, d.isVisible ⟨name, scope⟩ = false := by
  rw [resolve?, Option.map_eq_none_iff, h.find?_eq, List.findSome?_eq_none_iff]
  simp only [List.find?_eq_none, ← Bool.not_eq_true, isVisible_iff]
  constructor
  · rintro hnone scope ⟨f, hf, x, hx, href⟩
    exact hnone f hf x (List.mem_reverse.2 hx) (by simpa using congrArg VarRef.name href)
  · intro hnone f hf x hx hname
    refine hnone x.scope ⟨f, hf, x, List.mem_reverse.1 hx, ?_⟩
    rw [Declaration.ref, beq_iff_eq.1 hname]

end Indexed
end Declarations
end BlockTemplate
