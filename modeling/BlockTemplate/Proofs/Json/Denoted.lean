import BlockTemplate.Json.Fields
import BlockTemplate.Proofs.Decimal.Whole

/-! What terms denote: finite doubles and integers of 64 bits, nested no deeper than was allowed.
This holds of everything that is found inside. -/
namespace BlockTemplate.Json

/-- Data that a term may denote when so many arrays and objects are allowed around each other. -/
inductive Data.Within : Nat → Data → Prop
  | null {depth : Nat} : Within depth .null
  | bool {depth : Nat} (b : Bool) : Within depth (.bool b)
  | integer {depth : Nat} {n : Int} (h : n.natAbs < UInt64.size) : Within depth (.integer n)
  | real {depth : Nat} {x : Float} (h : x.isFinite = true) : Within depth (.real x)
  | text {depth : Nat} (s : String) : Within depth (.text s)
  | array {depth : Nat} {items : List Data} (h : ∀ d ∈ items, Within depth d) :
    Within (depth + 1) (.array items)
  | object {depth : Nat} {fields : List (String × Data)} (h : ∀ f ∈ fields, Within depth f.2) :
    Within (depth + 1) (.object fields)

theorem NumberText.toInt?_lt {n : NumberText} {i : Int} (h : n.toInt? = some i) :
    i.natAbs < UInt64.size := by
  simp only [toInt?] at h
  split at h
  · cases h
  · split at h
    · split at h
      · cases h
      · next hm =>
        cases h
        rw [Int.natAbs_neg, Int.natAbs_natCast]
        exact lt_of_le_of_lt (by omega) (by decide : 0x8000000000000000 < UInt64.size)
    · split at h
      · cases h
        assumption
      · cases h

theorem NumberText.toData?_within {n : NumberText} {d : Data} (h : n.toData? = some d)
    (depth : Nat) : d.Within depth := by
  rw [toData?] at h
  split at h
  · next i hi =>
    cases h
    exact .integer (toInt?_lt hi)
  · split at h
    · cases h
      exact .real ‹_›
    · cases h

mutual

theorem Term.toData?_within (t : Term) {depth : Nat} {d : Data} (h : t.toData? depth = some d) :
    d.Within depth := by
  match t with
  | .null =>
    cases h
    exact .null
  | .bool b =>
    cases h
    exact .bool b
  | .number n => exact NumberText.toData?_within h depth
  | .text body =>
    obtain ⟨s, _, rfl⟩ := Option.map_eq_some_iff.1 h
    exact .text _
  | .array items =>
    cases depth with
    | zero => cases h
    | succ depth =>
      obtain ⟨items', hitems, rfl⟩ := Option.map_eq_some_iff.1 h
      exact .array (listToData?_within items hitems)
  | .object fields =>
    cases depth with
    | zero => cases h
    | succ depth =>
      obtain ⟨fields', hfields, rfl⟩ := Option.map_eq_some_iff.1 h
      exact .object (fieldsToData?_within fields hfields)

theorem listToData?_within (ts : List Term) {depth : Nat} {ds : List Data}
    (h : listToData? depth ts = some ds) : ∀ d ∈ ds, d.Within depth := by
  match ts with
  | [] =>
    cases h
    simp
  | t :: rest =>
    obtain ⟨d, hd, h⟩ := Option.bind_eq_some_iff.1 h
    obtain ⟨others, hothers, h⟩ := Option.bind_eq_some_iff.1 h
    cases h
    exact List.forall_mem_cons.2 ⟨t.toData?_within hd, listToData?_within rest hothers⟩

theorem fieldsToData?_within (ts : List (List Char × Term)) {depth : Nat}
    {fields : List (String × Data)} (h : fieldsToData? depth ts = some fields) :
    ∀ f ∈ fields, f.2.Within depth := by
  match ts with
  | [] =>
    cases h
    simp
  | (key, t) :: rest =>
    obtain ⟨_, _, h⟩ := Option.bind_eq_some_iff.1 h
    obtain ⟨d, hd, h⟩ := Option.bind_eq_some_iff.1 h
    obtain ⟨others, hothers, h⟩ := Option.bind_eq_some_iff.1 h
    cases h
    exact List.forall_mem_cons.2 ⟨t.toData?_within hd, fieldsToData?_within rest hothers⟩

end

theorem mem_of_mapM {α β : Type} {f : α → Option β} {xs : List α} {ys : List β}
    (h : xs.mapM f = some ys) {y : β} (hy : y ∈ ys) : ∃ x ∈ xs, f x = some y := by
  induction xs generalizing ys with
  | nil =>
    cases h
    cases hy
  | cons x xs ih =>
    rw [List.mapM_cons] at h
    obtain ⟨first, hfirst, h⟩ := Option.bind_eq_some_iff.1 h
    obtain ⟨rest, hrest, h⟩ := Option.bind_eq_some_iff.1 h
    cases h
    obtain rfl | hy := List.mem_cons.1 hy
    · exact ⟨x, List.mem_cons_self, hfirst⟩
    · obtain ⟨found, hfound, hread⟩ := ih hrest hy
      exact ⟨found, List.mem_cons_of_mem x hfound, hread⟩

section Fields
variable {names : List String} {fields : List (String × Data)}

theorem mem_of_fieldsNamed {name : String} {d : Data} (h : d ∈ fieldsNamed name fields) :
    ∃ f ∈ fields, f.2 = d := by
  obtain ⟨f, hf, rfl⟩ := List.mem_map.1 h
  exact ⟨f, (List.mem_filter.1 hf).1, rfl⟩

theorem mem_of_objectValues? {values : List (Option Data)}
    (h : objectValues? names fields = some values) {d : Data} (hd : some d ∈ values) :
    ∃ f ∈ fields, f.2 = d := by
  induction names generalizing values with
  | nil =>
    cases h
    cases hd
  | cons name names ih =>
    rw [objectValues?] at h
    split at h
    · obtain ⟨rest, hrest, rfl⟩ := Option.map_eq_some_iff.1 h
      exact ih hrest (by simpa using hd)
    · next found hfound =>
      obtain ⟨rest, hrest, rfl⟩ := Option.map_eq_some_iff.1 h
      obtain hd | hd := List.mem_cons.1 hd
      · cases hd
        exact mem_of_fieldsNamed (by rw [hfound]; exact List.mem_singleton_self d)
      · exact ih hrest hd
    · cases h

theorem mem_of_arrayValues? {items : List Data} {values : List (Option Data)}
    (h : arrayValues? names items = some values) {d : Data} (hd : some d ∈ values) :
    d ∈ items := by
  induction names generalizing items values with
  | nil =>
    cases items with
    | nil =>
      cases h
      cases hd
    | cons => cases h
  | cons name names ih =>
    cases items with
    | nil =>
      obtain ⟨rest, hrest, rfl⟩ := Option.map_eq_some_iff.1 h
      exact ih hrest (by simpa using hd)
    | cons item items =>
      obtain ⟨rest, hrest, rfl⟩ := Option.map_eq_some_iff.1 h
      obtain hd | hd := List.mem_cons.1 hd
      · cases hd
        exact List.mem_cons_self
      · exact List.mem_cons_of_mem item (ih hrest hd)

theorem mem_of_required? {values : List Data} (h : required? names fields = some values)
    {d : Data} (hd : d ∈ values) : ∃ f ∈ fields, f.2 = d := by
  obtain ⟨found, hfound, h⟩ := Option.bind_eq_some_iff.1 h
  obtain ⟨x, hx, hread⟩ := mem_of_mapM h hd
  exact mem_of_objectValues? hfound (hread ▸ hx)

end Fields

namespace Data.Within
variable {depth : Nat} {d : Data}

/-- The fields of a record are one level further inside. -/
theorem fields (hd : d.Within depth) {names : List String} {values : List (Option Data)}
    (h : d.fields? names = some values) :
    ∃ inner, depth = inner + 1 ∧ ∀ x, some x ∈ values → x.Within inner := by
  cases hd with
  | array hitems => exact ⟨_, rfl, fun x hx => hitems x (mem_of_arrayValues? h hx)⟩
  | object hfields =>
    refine ⟨_, rfl, fun x hx => ?_⟩
    obtain ⟨f, hf, rfl⟩ := mem_of_objectValues? h hx
    exact hfields f hf
  | _ => cases h

theorem items (hd : d.Within depth) {items : List Data} (h : d.array? = some items) :
    ∃ inner, depth = inner + 1 ∧ ∀ x ∈ items, x.Within inner := by
  cases hd with
  | array hitems =>
    cases h
    exact ⟨_, rfl, hitems⟩
  | _ => cases h

theorem isFinite (hd : d.Within depth) {x : Float} (h : d.float? = some x) :
    x.isFinite = true := by
  cases hd with
  | real hx =>
    cases h
    exact hx
  | integer hn =>
    cases h
    have hfinite := Decimal.isFinite_scaled hn
    split
    · exact Decimal.isFinite_neg hfinite
    · exact hfinite
  | _ => cases h

end Data.Within

theorem natBelow?_lt {d : Data} {bound n : Nat} (h : d.natBelow? bound = some n) : n < bound := by
  cases d with
  | integer i =>
    rw [Data.natBelow?] at h
    split at h
    · cases h
      omega
    · cases h
  | _ => cases h

end BlockTemplate.Json
