import BlockTemplate.Proofs.Emission.Sound
import BlockTemplate.Proofs.Value.Rules
import Mathlib.Data.List.Nodup

/-! Values as trees: which of them are written, as what, and what is reported of the others. -/
namespace BlockTemplate

/-- How lists and dictionaries nest. -/
inductive Shape where
  | leaf
  | list (items : List Shape)
  | dict (entries : List (String × Shape))

mutual

def Parameter.shape : Parameter → Shape
  | .list items => .list (shapesOfParameters items)
  | .dict entries => .dict (shapesOfFields entries)
  | _ => .leaf

def shapesOfParameters : List Parameter → List Shape
  | [] => []
  | p :: rest => p.shape :: shapesOfParameters rest

def shapesOfFields : List (String × Parameter) → List (String × Shape)
  | [] => []
  | (key, p) :: rest => (key, p.shape) :: shapesOfFields rest

end

namespace Value

mutual

def shape : Value → Shape
  | .list items => .list (shapesOfList items)
  | .dict entries => .dict (shapesOfEntries entries)
  | _ => .leaf

def shapesOfList : List Value → List Shape
  | [] => []
  | v :: rest => v.shape :: shapesOfList rest

def shapesOfEntries : List (String × Value) → List (String × Shape)
  | [] => []
  | (key, v) :: rest => (key, v.shape) :: shapesOfEntries rest

end

mutual

/-- What a value is written as if nothing is wrong with it. -/
def record (limits : Limits) : Value → Parameter
  | .text s => .text (if limits.translateColors then Text.translateColors s else s)
  | .number x => .number (Decimal.unsignedZero x)
  | .location l =>
    .location l.isBlock ⟨l.x, l.y, l.z, l.pitch.getD 0.0, l.yaw.getD 0.0⟩ l.world
  | .vector v => .vector v.x v.y v.z
  | .item i => .item (i.tagText limits)
  | .sound s => .sound s.name s.pitch s.volume
  | .potion p => .potion p.effect p.duration p.amplifier
  | .particle name => .particle name
  | .gameValue g => .gameValue g.kind g.target.name
  | .variable v => .variable v.name v.scope.documentWord
  | .list items => .list (recordsOfList limits items)
  | .dict entries => .dict (recordsOfEntries limits entries)

def recordsOfList (limits : Limits) : List Value → List Parameter
  | [] => []
  | v :: rest => v.record limits :: recordsOfList limits rest

def recordsOfEntries (limits : Limits) : List (String × Value) → List (String × Parameter)
  | [] => []
  | (key, v) :: rest => (key, v.record limits) :: recordsOfEntries limits rest

end

section Records
variable (limits : Limits)

mutual

theorem record_shape (v : Value) : (v.record limits).shape = v.shape := by
  match v with
  | .text _ | .number _ | .location _ | .vector _ | .item _ | .sound _ | .potion _ | .particle _
  | .gameValue _ | .variable _ => rfl
  | .list items => rw [record, Parameter.shape, shape, recordsOfList_shapes items]
  | .dict entries => rw [record, Parameter.shape, shape, recordsOfEntries_shapes entries]

theorem recordsOfList_shapes (items : List Value) :
    shapesOfParameters (recordsOfList limits items) = shapesOfList items := by
  match items with
  | [] => rfl
  | v :: rest =>
    rw [recordsOfList, shapesOfParameters, shapesOfList, record_shape v,
      recordsOfList_shapes rest]

theorem recordsOfEntries_shapes (entries : List (String × Value)) :
    shapesOfFields (recordsOfEntries limits entries) = shapesOfEntries entries := by
  match entries with
  | [] => rfl
  | (key, v) :: rest =>
    rw [recordsOfEntries, shapesOfFields, shapesOfEntries, record_shape v,
      recordsOfEntries_shapes rest]

end

end Records

/-! ### Places -/

/-- What a list or dictionary holds. -/
def children : Value → List Value
  | .list items => items
  | .dict entries => entries.map (·.2)
  | _ => []

def keys : Value → List String
  | .dict entries => entries.map (·.1)
  | _ => []

/-- The value that is found by going down to the position given for each level. -/
def at? : Value → List Nat → Option Value
  | v, [] => some v
  | v, i :: place => v.children[i]?.bind fun u => u.at? place

/-- Something is wrong with the value itself: the rule with this number is broken, or the key at
this position stands before it already. -/
inductive BreaksAt (limits : Limits) (v : Value) : Nat → ValueError → Prop
  | rule {k : Nat} {r : Rule} (own : (v.rules limits)[k]? = some r) (broken : ¬ r.holds) :
    BreaksAt limits v k r.error
  | repeatedKey {i : Nat} {key : String} (own : v.keys[i]? = some key)
    (earlier : key ∈ v.keys.take i) : BreaksAt limits v i (.duplicateKey key)

/-- Something is wrong at a place: at the last number of it, in the value found at the others. -/
def Violation (limits : Limits) (v : Value) (place : List Nat) (e : ValueError) : Prop :=
  ∃ above i u, place = above ++ [i] ∧ v.at? above = some u ∧ u.BreaksAt limits i e

/-- Every value inside keeps its rules, and no dictionary inside repeats a key. -/
structure Valid (limits : Limits) (v : Value) : Prop where
  rules : ∀ place u, v.at? place = some u → ∀ r ∈ u.rules limits, r.holds
  keys : ∀ place entries, v.at? place = some (.dict entries) → (entries.map (·.1)).Nodup

end Value

/-- The error at the first of some places, depth first from left to right. What is wrong with a key
comes before what is wrong inside its entry. -/
def FirstOf (wrong : List Nat → ValueError → Prop) (e : ValueError) : Prop :=
  ∃ place, wrong place e ∧ ∀ other e', List.Lex (· < ·) other place → ¬ wrong other e'

/-- Returns if nothing is wrong, and fails with the error at the first place. -/
def Judges {α : Type} (wrong : List Nat → ValueError → Prop) : Except ValueError α → Prop :=
  Meets (fun _ => ∀ place e, ¬ wrong place e) (FirstOf wrong)

namespace Judges
variable {α β γ : Type} {wrong first rest : List Nat → ValueError → Prop}
  {x : Except ValueError α} {y : Except ValueError β}

theorem congr (h : Judges first x) (heq : ∀ place e, wrong place e ↔ first place e) :
    Judges wrong x := by
  have : wrong = first := by
    funext place e
    exact propext (heq place e)
  rwa [this]

theorem returns (h : Judges wrong x) (g : α → β) :
    Judges wrong (x >>= fun a => .ok (g a)) := by
  cases x with
  | ok a => exact h
  | error e => exact h

/-- Nothing comes before the place itself. -/
theorem refused {e : ValueError} (h : wrong [] e) :
    Judges wrong (.error e : Except ValueError α) :=
  ⟨[], h, fun _ _ hlex => absurd hlex List.not_lex_nil⟩

/-- One thing after another: what is wrong with the first is at position 0, and what is wrong with
the rest is one position further on than it is there. -/
theorem cons (hnil : ∀ e, ¬ wrong [] e) (hzero : ∀ place e, wrong (0 :: place) e ↔ first place e)
    (hsucc : ∀ i place e, wrong ((i + 1) :: place) e ↔ rest (i :: place) e)
    (hrest : ∀ e, ¬ rest [] e) (hx : Judges first x) (hy : Judges rest y) (g : α → β → γ) :
    Judges wrong (x >>= fun a => y >>= fun b => .ok (g a b)) := by
  cases x with
  | error e =>
    obtain ⟨place, hplace, hbefore⟩ := hx
    refine ⟨0 :: place, (hzero place e).2 hplace, fun other e' hlex hother => ?_⟩
    cases other with
    | nil => exact hnil e' hother
    | cons i other =>
      obtain hlt | ⟨rfl, hinner⟩ := List.cons_lex_cons_iff.1 hlex
      · exact absurd hlt (Nat.not_lt_zero i)
      · exact hbefore other e' hinner ((hzero other e').1 hother)
  | ok a =>
    cases y with
    | error e =>
      obtain ⟨place, hplace, hbefore⟩ := hy
      cases place with
      | nil => exact absurd hplace (hrest e)
      | cons i place =>
        refine ⟨(i + 1) :: place, (hsucc i place e).2 hplace, fun other e' hlex hother => ?_⟩
        cases other with
        | nil => exact hnil e' hother
        | cons j other =>
          cases j with
          | zero => exact hx other e' ((hzero other e').1 hother)
          | succ j =>
            have hearlier : List.Lex (· < ·) (j :: other) (i :: place) := by
              simpa [List.cons_lex_cons_iff] using hlex
            exact hbefore (j :: other) e' hearlier ((hsucc j other e').1 hother)
    | ok b =>
      intro place e hplace
      cases place with
      | nil => exact hnil e hplace
      | cons i place =>
        cases i with
        | zero => exact hx place e ((hzero place e).1 hplace)
        | succ i => exact hy (i :: place) e ((hsucc i place e).1 hplace)

end Judges

namespace Value

section Violations
variable {limits : Limits} {v : Value} {place : List Nat} {e : ValueError}

theorem not_violation_nil : ¬ v.Violation limits [] e := by
  rintro ⟨above, i, u, hplace, _⟩
  simp at hplace

theorem violation_cons {i : Nat} : v.Violation limits (i :: place) e ↔
    (place = [] ∧ v.BreaksAt limits i e) ∨
      ∃ u, v.children[i]? = some u ∧ u.Violation limits place e := by
  constructor
  · rintro ⟨above, j, w, hplace, hat, hbreaks⟩
    cases above with
    | nil =>
      cases hplace
      cases hat
      exact .inl ⟨rfl, hbreaks⟩
    | cons k above =>
      cases hplace
      obtain ⟨u, hu, hat⟩ := Option.bind_eq_some_iff.1 hat
      exact .inr ⟨u, hu, above, j, w, rfl, hat, hbreaks⟩
  · rintro (⟨rfl, hbreaks⟩ | ⟨u, hu, above, j, w, rfl, hat, hbreaks⟩)
    · exact ⟨[], i, v, rfl, rfl, hbreaks⟩
    · exact ⟨i :: above, j, w, rfl, Option.bind_eq_some_iff.2 ⟨u, hu, hat⟩, hbreaks⟩

end Violations

/-- What is wrong with items, and with their keys if they have some, after other keys. -/
def Faulty (limits : Limits) (seen keys : List String) (items : List Value) :
    List Nat → ValueError → Prop
  | [], _ => False
  | i :: place, e =>
    (place = [] ∧ ∃ key, keys[i]? = some key ∧ (key ∈ seen ∨ key ∈ keys.take i) ∧
      e = .duplicateKey key) ∨
    ∃ u, items[i]? = some u ∧ u.Violation limits place e

section Faults
variable {limits : Limits}

theorem violation_iff_faulty {v : Value} (hrules : v.rules limits = []) (place : List Nat)
    (e : ValueError) :
    v.Violation limits place e ↔ Faulty limits [] v.keys v.children place e := by
  cases place with
  | nil => exact iff_of_false not_violation_nil id
  | cons i place =>
    have hbreaks : v.BreaksAt limits i e ↔ ∃ key, v.keys[i]? = some key ∧
        (key ∈ [] ∨ key ∈ v.keys.take i) ∧ e = .duplicateKey key := by
      constructor
      · intro h
        cases h with
        | rule own =>
          rw [hrules] at own
          cases own
        | repeatedKey own earlier => exact ⟨_, own, .inr earlier, rfl⟩
      · rintro ⟨key, own, hseen | earlier, rfl⟩
        · cases hseen
        · exact .repeatedKey own earlier
    rw [violation_cons, hbreaks]
    rfl

/-- A value without items is judged by its rules. -/
theorem judges_of_follows {α : Type} {x : Except ValueError α} {v : Value}
    (hchildren : v.children = []) (hkeys : v.keys = []) (h : Follows (v.rules limits) x) :
    Judges (v.Violation limits) x := by
  have hviolation (place : List Nat) (e : ValueError) : v.Violation limits place e ↔
      ∃ k r, place = [k] ∧ (v.rules limits)[k]? = some r ∧ ¬ r.holds ∧ r.error = e := by
    cases place with
    | nil => exact iff_of_false not_violation_nil (by simp)
    | cons k place =>
      rw [violation_cons, hchildren]
      constructor
      · rintro (⟨rfl, hbreaks⟩ | ⟨u, hu, _⟩)
        · cases hbreaks with
          | rule own broken => exact ⟨k, _, rfl, own, broken, rfl⟩
          | repeatedKey own =>
            rw [hkeys] at own
            cases own
        · cases hu
      · rintro ⟨j, r, hplace, own, broken, rfl⟩
        cases hplace
        exact .inl ⟨rfl, .rule own broken⟩
  cases x with
  | ok a =>
    intro place e hplace
    obtain ⟨k, r, _, hr, broken, _⟩ := (hviolation place e).1 hplace
    exact broken (h r (List.mem_of_getElem? hr))
  | error e =>
    obtain ⟨before, r, after, heq, hbefore, broken, he⟩ := h
    refine ⟨[before.length], (hviolation _ _).2 ⟨_, r, rfl, by simp [heq], broken, he⟩, ?_⟩
    intro other e' hlex hother
    obtain ⟨k, q, rfl, hq, hbroken, _⟩ := (hviolation other e').1 hother
    have hk : k < before.length := by simpa [List.cons_lex_cons_iff, List.not_lex_nil] using hlex
    rw [heq, List.getElem?_append_left hk] at hq
    exact hbroken (hbefore q (List.mem_of_getElem? hq))

theorem faulty_zero {v : Value} {items : List Value} {place : List Nat} {e : ValueError} :
    Faulty limits [] [] (v :: items) (0 :: place) e ↔ v.Violation limits place e := by
  simp [Faulty]

theorem faulty_succ {v : Value} {items : List Value} {i : Nat} {place : List Nat}
    {e : ValueError} : Faulty limits [] [] (v :: items) ((i + 1) :: place) e ↔
      Faulty limits [] [] items (i :: place) e := by
  simp [Faulty]

theorem faulty_key_zero {seen keys : List String} {key : String} {v : Value}
    {items : List Value} {place : List Nat} {e : ValueError} :
    Faulty limits seen (key :: keys) (v :: items) (0 :: place) e ↔
      (place = [] ∧ key ∈ seen ∧ e = .duplicateKey key) ∨ v.Violation limits place e := by
  simp [Faulty]

theorem faulty_key_succ {seen keys : List String} {key : String} {v : Value}
    {items : List Value} {i : Nat} {place : List Nat} {e : ValueError} :
    Faulty limits seen (key :: keys) (v :: items) ((i + 1) :: place) e ↔
      Faulty limits (key :: seen) keys items (i :: place) e := by
  simp only [Faulty, List.getElem?_cons_succ, List.take_succ_cons, List.mem_cons]
  grind

end Faults

section Encoding
variable (limits : Limits)

/-- The value of an entry, unless its key was seen. -/
def encodeEntry (seen : List String) (key : String) (v : Value) :
    Except ValueError Parameter :=
  if key ∈ seen then .error (.duplicateKey key) else v.encode limits

theorem encodeEntries_cons (seen : List String) (key : String) (v : Value)
    (rest : List (String × Value)) :
    encodeEntries limits seen ((key, v) :: rest) =
      encodeEntry limits seen key v >>= fun first =>
        encodeEntries limits (key :: seen) rest >>= fun others => .ok ((key, first) :: others) := by
  rw [encodeEntries, encodeEntry]
  by_cases hseen : key ∈ seen
  · simp only [List.contains_iff_mem, hseen, if_true]
    rfl
  · simp only [List.contains_iff_mem, hseen, if_false]
    rfl

theorem encodeEntry_judges {seen : List String} {key : String} {v : Value}
    (h : Judges (v.Violation limits) (v.encode limits)) :
    Judges (fun place e => (place = [] ∧ key ∈ seen ∧ e = .duplicateKey key) ∨
      v.Violation limits place e) (encodeEntry limits seen key v) := by
  rw [encodeEntry]
  split
  · next hseen => exact .refused (.inl ⟨rfl, hseen, rfl⟩)
  · next hseen => exact h.congr fun place e => by simp [hseen]

mutual

theorem encode_judges (v : Value) : Judges (v.Violation limits) (v.encode limits) := by
  match v with
  | .text s => exact judges_of_follows rfl rfl (.ok _)
  | .number x => exact judges_of_follows rfl rfl ((requireFinite_follows _ _).returns _)
  | .location l => exact judges_of_follows rfl rfl (l.encode_follows limits)
  | .vector w => exact judges_of_follows rfl rfl w.encode_follows
  | .item i => exact judges_of_follows rfl rfl (i.encode_follows limits)
  | .sound s => exact judges_of_follows rfl rfl s.encode_follows
  | .potion p => exact judges_of_follows rfl rfl p.encode_follows
  | .particle _ | .gameValue _ | .variable _ =>
    exact judges_of_follows rfl rfl ((requireText_follows _ _).returns _)
  | .list items =>
    rw [encode]
    exact ((encodeList_judges items).congr (violation_iff_faulty rfl)).returns _
  | .dict entries =>
    rw [encode]
    exact ((encodeEntries_judges [] entries).congr (violation_iff_faulty rfl)).returns _

theorem encodeList_judges (items : List Value) :
    Judges (Faulty limits [] [] items) (encodeList limits items) := by
  match items with
  | [] =>
    intro place e hplace
    cases place <;> simp [Faulty] at hplace
  | v :: rest =>
    rw [encodeList]
    exact .cons (fun _ => id) (fun _ _ => faulty_zero) (fun _ _ _ => faulty_succ) (fun _ => id)
      (encode_judges v) (encodeList_judges rest) _

theorem encodeEntries_judges (seen : List String) (entries : List (String × Value)) :
    Judges (Faulty limits seen (entries.map (·.1)) (entries.map (·.2)))
      (encodeEntries limits seen entries) := by
  match entries with
  | [] =>
    intro place e hplace
    cases place <;> simp [Faulty] at hplace
  | (key, v) :: rest =>
    rw [encodeEntries_cons]
    exact .cons (fun _ => id) (fun _ _ => faulty_key_zero) (fun _ _ _ => faulty_key_succ)
      (fun _ => id) (encodeEntry_judges limits (encode_judges v))
      (encodeEntries_judges (key :: seen) rest) _

end

mutual

theorem encode_record (v : Value) {p : Parameter} (h : v.encode limits = .ok p) :
    p = v.record limits := by
  match v with
  | .text s =>
    cases h
    rfl
  | .number _ | .item _ | .particle _ | .gameValue _ | .variable _ =>
    obtain ⟨_, _, h⟩ := bind_eq_ok.1 h
    cases h
    rfl
  | .location l =>
    obtain ⟨_, _, h⟩ := bind_eq_ok.1 h
    obtain ⟨_, _, h⟩ := bind_eq_ok.1 h
    obtain ⟨_, _, h⟩ := bind_eq_ok.1 h
    obtain ⟨_, _, h⟩ := bind_eq_ok.1 h
    obtain ⟨_, _, h⟩ := bind_eq_ok.1 h
    cases h
    rfl
  | .vector _ | .sound _ | .potion _ =>
    obtain ⟨_, _, h⟩ := bind_eq_ok.1 h
    obtain ⟨_, _, h⟩ := bind_eq_ok.1 h
    obtain ⟨_, _, h⟩ := bind_eq_ok.1 h
    cases h
    rfl
  | .list items =>
    rw [encode] at h
    obtain ⟨params, hparams, h⟩ := bind_eq_ok.1 h
    cases h
    rw [record, encodeList_records items hparams]
  | .dict entries =>
    rw [encode] at h
    obtain ⟨params, hparams, h⟩ := bind_eq_ok.1 h
    cases h
    rw [record, encodeEntries_records [] entries hparams]

theorem encodeList_records (items : List Value) {params : List Parameter}
    (h : encodeList limits items = .ok params) : params = recordsOfList limits items := by
  match items with
  | [] =>
    cases h
    rfl
  | v :: rest =>
    obtain ⟨first, hfirst, h⟩ := bind_eq_ok.1 h
    obtain ⟨others, hothers, h⟩ := bind_eq_ok.1 h
    cases h
    rw [recordsOfList, encode_record v hfirst, encodeList_records rest hothers]

theorem encodeEntries_records (seen : List String) (entries : List (String × Value))
    {params : List (String × Parameter)} (h : encodeEntries limits seen entries = .ok params) :
    params = recordsOfEntries limits entries := by
  match entries with
  | [] =>
    cases h
    rfl
  | (key, v) :: rest =>
    rw [encodeEntries_cons] at h
    obtain ⟨first, hfirst, h⟩ := bind_eq_ok.1 h
    obtain ⟨others, hothers, h⟩ := bind_eq_ok.1 h
    cases h
    rw [encodeEntry] at hfirst
    split at hfirst
    · cases hfirst
    · rw [recordsOfEntries, encode_record v hfirst, encodeEntries_records _ rest hothers]

end

end Encoding

section Validity
variable {limits : Limits}

theorem nodup_iff_fresh (keys : List String) :
    keys.Nodup ↔ ∀ i key, keys[i]? = some key → key ∉ keys.take i := by
  rw [List.nodup_iff_getElem?_ne_getElem?]
  constructor
  · intro h i key hi hmem
    obtain ⟨j, hj⟩ := List.getElem?_of_mem hmem
    rw [List.getElem?_take] at hj
    split at hj
    · next hlt => exact h j i hlt (List.getElem?_eq_some_iff.1 hi).1 (hj.trans hi.symm)
    · cases hj
  · intro h i j hij hj heq
    have hkey : keys[j]? = some keys[j] := List.getElem?_eq_getElem hj
    refine h j _ hkey (List.mem_of_getElem? (i := i) ?_)
    rw [List.getElem?_take, if_pos hij, heq, hkey]

theorem valid_iff_no_violation (v : Value) :
    v.Valid limits ↔ ∀ place e, ¬ v.Violation limits place e := by
  constructor
  · rintro ⟨hrules, hkeys⟩ place e ⟨above, i, u, _, hat, hbreaks⟩
    cases hbreaks with
    | rule own broken => exact broken (hrules above u hat _ (List.mem_of_getElem? own))
    | repeatedKey own earlier =>
      cases u with
      | dict entries => exact (nodup_iff_fresh _).1 (hkeys above entries hat) i _ own earlier
      | _ => cases own
  · intro h
    constructor
    · intro place u hat r hr
      obtain ⟨k, hk⟩ := List.getElem?_of_mem hr
      by_contra hbroken
      exact h _ _ ⟨place, k, u, rfl, hat, .rule hk hbroken⟩
    · intro place entries hat
      refine (nodup_iff_fresh _).2 fun i key own earlier => ?_
      exact h _ _ ⟨place, i, _, rfl, hat, .repeatedKey own earlier⟩

/-- Only dictionaries have keys, and these have no rules of their own. -/
theorem rules_eq_nil_of_key {v : Value} {i : Nat} {key : String} (h : v.keys[i]? = some key) :
    v.rules limits = [] := by
  cases v with
  | dict entries => rfl
  | _ => cases h

theorem BreaksAt.unique {v : Value} {i : Nat} {e e' : ValueError} (h : v.BreaksAt limits i e)
    (h' : v.BreaksAt limits i e') : e = e' := by
  cases h with
  | rule own =>
    cases h' with
    | rule own' =>
      cases own.symm.trans own'
      rfl
    | repeatedKey own' =>
      rw [rules_eq_nil_of_key own'] at own
      cases own
  | repeatedKey own =>
    cases h' with
    | rule own' =>
      rw [rules_eq_nil_of_key own] at own'
      cases own'
    | repeatedKey own' =>
      cases own.symm.trans own'
      rfl

theorem Violation.unique {v : Value} {place : List Nat} {e e' : ValueError}
    (h : v.Violation limits place e) (h' : v.Violation limits place e') : e = e' := by
  obtain ⟨above, i, u, rfl, hat, hbreaks⟩ := h
  obtain ⟨above', i', u', hplace, hat', hbreaks'⟩ := h'
  obtain ⟨rfl, hi⟩ := List.append_inj' hplace rfl
  cases hi
  cases hat.symm.trans hat'
  exact hbreaks.unique hbreaks'

theorem firstOf_unique {v : Value} {e e' : ValueError} (h : FirstOf (v.Violation limits) e)
    (h' : FirstOf (v.Violation limits) e') : e = e' := by
  obtain ⟨place, hplace, hbefore⟩ := h
  obtain ⟨place', hplace', hbefore'⟩ := h'
  have heq : place = place' := by
    apply List.lex_trichotomous (r := (· < ·)) (fun _ _ => by omega)
    · exact fun hlex => hbefore _ _ hlex hplace'
    · exact fun hlex => hbefore' _ _ hlex hplace
  subst heq
  exact hplace.unique hplace'

end Validity

/-- A value is written exactly if every value inside keeps the rules of its kind and no dictionary
inside repeats a key. The record has the shape of the value and holds finite doubles only. All
others are refused for what is wrong first, depth first from left to right. -/
theorem encode_exactly (limits : Limits) (v : Value) :
    ((∃ p, v.encode limits = .ok p) ↔ v.Valid limits) ∧
    (∀ p, v.encode limits = .ok p → p = v.record limits ∧ p.shape = v.shape ∧
      ∀ x ∈ p.reals, x.isFinite = true) ∧
    ∀ e, v.encode limits = .error e ↔ FirstOf (v.Violation limits) e := by
  have hjudges := encode_judges limits v
  refine ⟨?_, fun p hp => ?_, fun e => ⟨fun he => hjudges.of_error he, fun hfirst => ?_⟩⟩
  · rw [valid_iff_no_violation]
    constructor
    · rintro ⟨p, hp⟩
      exact hjudges.of_ok hp
    · intro hnone
      cases hv : v.encode limits with
      | ok p => exact ⟨p, rfl⟩
      | error e =>
        obtain ⟨place, hplace, _⟩ := hjudges.of_error hv
        exact absurd hplace (hnone place e)
  · have hrecord := encode_record limits v hp
    refine ⟨hrecord, ?_, (v.encode_sound hp).finite⟩
    rw [hrecord, record_shape]
  · obtain ⟨place, hplace, _⟩ := id hfirst
    cases hv : v.encode limits with
    | ok p => exact absurd hplace (hjudges.of_ok hv place e)
    | error e' => rw [firstOf_unique hfirst (hjudges.of_error hv)]

/-- Values that nest and are fine. -/
def lamp : Value :=
  .dict [("name", .text "&6lamp"), ("near", .list [.number 0.5, .list [], .particle "Flame"])]

/-- A key that is repeated two levels down, before a number that is none and before another key
that is repeated further up. -/
def brokenLamp : Value :=
  .dict [("name", .list [.text "a", .dict [("x", .text "b"), ("x", .number (0.0 / 0.0))]]),
    ("name", .particle "")]

theorem encode_exactly_lamps :
    (lamp.Valid {} ∧ ∃ p, lamp.encode {} = .ok p ∧ p.shape = lamp.shape ∧
      p.shape = .dict [("name", .leaf), ("near", .list [.leaf, .list [], .leaf])]) ∧
    ¬ brokenLamp.Valid {} ∧ FirstOf (brokenLamp.Violation {}) (.duplicateKey "x") := by
  have hhalf : Float.isFinite 0.5 = true := by decide +kernel
  have hok : ∃ p, lamp.encode {} = .ok p := by
    refine ⟨lamp.record {}, ?_⟩
    simp only [lamp, encode, encodeEntries, encodeList, ValueError.requireFinite, hhalf]
    rfl
  have herror : brokenLamp.encode {} = .error (.duplicateKey "x") := rfl
  refine ⟨⟨(encode_exactly {} lamp).1.1 hok, ?_⟩, fun hvalid => ?_, ?_⟩
  · obtain ⟨p, hp⟩ := hok
    have hshape := ((encode_exactly {} lamp).2.1 p hp).2.1
    exact ⟨p, hp, hshape, hshape⟩
  · obtain ⟨p, hp⟩ := (encode_exactly {} brokenLamp).1.2 hvalid
    cases herror.symm.trans hp
  · exact ((encode_exactly {} brokenLamp).2.2 _).1 herror

end Value
end BlockTemplate
