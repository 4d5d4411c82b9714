import BlockTemplate.Proofs.Keys
import BlockTemplate.Proofs.Outcome
import BlockTemplate.Script.Replay

/-! Named arguments may stand anywhere among the positional ones. Which value a call has, and whether
it has one, does not depend on their places. -/
namespace BlockTemplate.Script

mutual

/-- The same expression, maybe written elsewhere, where the named arguments of every call may come
in another order and at other places between the positional ones. -/
inductive Expr.Rearranged : Expr → Expr → Prop
  | text (s : String) (a b : Span) : Expr.Rearranged (.text s a) (.text s b)
  | number (x : Float) (a b : Span) : Expr.Rearranged (.number x a) (.number x b)
  | ident (s : String) (a b : Span) : Expr.Rearranged (.ident s a) (.ident s b)
  | list {items others : List Expr} (a b : Span) (h : ItemsRearranged items others) :
      Expr.Rearranged (.list items a) (.list others b)
  | dict {entries others : List (Name × Expr)} (a b : Span)
      (h : EntriesRearranged entries others) : Expr.Rearranged (.dict entries a) (.dict others b)
  | call {head head' : Name} {args args' : List (Option Name × Expr)} {named : List (Name × Expr)}
      (a b : Span) (hhead : head.item = head'.item)
      (hpositional : ItemsRearranged (positionalArgs args) (positionalArgs args'))
      (hmoved : (namedArgs args).Perm named) (hnamed : EntriesRearranged named (namedArgs args')) :
      Expr.Rearranged (.call head args a) (.call head' args' b)

inductive ItemsRearranged : List Expr → List Expr → Prop
  | nil : ItemsRearranged [] []
  | cons {e e' : Expr} {rest rest' : List Expr} (h : Expr.Rearranged e e')
      (hrest : ItemsRearranged rest rest') : ItemsRearranged (e :: rest) (e' :: rest')

inductive EntriesRearranged : List (Name × Expr) → List (Name × Expr) → Prop
  | nil : EntriesRearranged [] []
  | cons {key key' : Name} {e e' : Expr} {rest rest' : List (Name × Expr)}
      (hkey : key.item = key'.item) (h : Expr.Rearranged e e')
      (hrest : EntriesRearranged rest rest') :
      EntriesRearranged ((key, e) :: rest) ((key', e') :: rest')

end

mutual

theorem Expr.Rearranged.refl (e : Expr) : e.Rearranged e := by
  match e with
  | .text s span => exact .text s span span
  | .number x span => exact .number x span span
  | .ident s span => exact .ident s span span
  | .list items span => exact .list span span (ItemsRearranged.refl items)
  | .dict entries span => exact .dict span span (EntriesRearranged.refl entries)
  | .call head args span =>
    exact .call span span rfl (positionalArgs_rearranged args) (.refl _) (namedArgs_rearranged args)

theorem ItemsRearranged.refl (items : List Expr) : ItemsRearranged items items := by
  match items with
  | [] => exact .nil
  | e :: rest => exact .cons (Expr.Rearranged.refl e) (ItemsRearranged.refl rest)

theorem EntriesRearranged.refl (entries : List (Name × Expr)) :
    EntriesRearranged entries entries := by
  match entries with
  | [] => exact .nil
  | (key, e) :: rest => exact .cons rfl (Expr.Rearranged.refl e) (EntriesRearranged.refl rest)

theorem positionalArgs_rearranged (args : List (Option Name × Expr)) :
    ItemsRearranged (positionalArgs args) (positionalArgs args) := by
  match args with
  | [] => exact .nil
  | (none, e) :: rest => exact .cons (Expr.Rearranged.refl e) (positionalArgs_rearranged rest)
  | (some key, _) :: rest => exact positionalArgs_rearranged rest

theorem namedArgs_rearranged (args : List (Option Name × Expr)) :
    EntriesRearranged (namedArgs args) (namedArgs args) := by
  match args with
  | [] => exact .nil
  | (none, _) :: rest => exact namedArgs_rearranged rest
  | (some key, e) :: rest => exact .cons rfl (Expr.Rearranged.refl e) (namedArgs_rearranged rest)

end

/-- Both return the same, or both fail, for whatever reasons. -/
def Agree {α : Type} (x y : Except Failure α) : Prop := ∀ a, x = .ok a ↔ y = .ok a

namespace Agree
variable {α β : Type} {x y : Except Failure α} {f g : α → Except Failure β}

theorem refl (x : Except Failure α) : Agree x x := fun _ => Iff.rfl

theorem failed (e e' : Failure) : Agree (.error e : Except Failure α) (.error e') := by
  intro a
  simp

theorem bind (hx : Agree x y) (hf : ∀ a, x = .ok a → Agree (f a) (g a)) :
    Agree (x >>= f) (y >>= g) := by
  intro b
  rw [bind_eq_ok, bind_eq_ok]
  constructor
  · rintro ⟨a, ha, hb⟩
    exact ⟨a, (hx a).1 ha, (hf a ha b).1 hb⟩
  · rintro ⟨a, ha, hb⟩
    have ha' := (hx a).2 ha
    exact ⟨a, ha', (hf a ha' b).2 hb⟩

end Agree

/-- Reading an expression does not depend on places and on the order of named arguments. -/
def Placeless {α : Type} (read : Expr → Except Failure α) : Prop :=
  ∀ e e', e.Rearranged e' → Agree (read e) (read e')

section Reading
variable {α : Type} {read : Expr → Except Failure α}

theorem ItemsRearranged.mapM {items others : List Expr} (hread : Placeless read)
    (h : ItemsRearranged items others) : Agree (items.mapM read) (others.mapM read) := by
  induction items generalizing others with
  | nil =>
    cases h
    exact .refl _
  | cons e rest ih =>
    cases h with
    | cons he hrest =>
      rw [List.mapM_cons, List.mapM_cons]
      exact (hread _ _ he).bind fun a _ => (ih hrest).bind fun as _ => .refl _

theorem EntriesRearranged.mapM {entries others : List (Name × Expr)}
    {readEntry : Name × Expr → Except Failure α}
    (hread : ∀ key key' e e', key.item = key'.item → e.Rearranged e' →
      Agree (readEntry (key, e)) (readEntry (key', e')))
    (h : EntriesRearranged entries others) :
    Agree (entries.mapM readEntry) (others.mapM readEntry) := by
  induction entries generalizing others with
  | nil =>
    cases h
    exact .refl _
  | cons entry rest ih =>
    cases h with
    | cons hkey he hrest =>
      rw [List.mapM_cons, List.mapM_cons]
      exact (hread _ _ _ _ hkey he).bind fun a _ => (ih hrest).bind fun as _ => .refl _

end Reading

theorem ItemsRearranged.of_nil {others : List Expr} (h : ItemsRearranged [] others) :
    others = [] := by
  cases h
  rfl

theorem ItemsRearranged.of_cons {e : Expr} {rest others : List Expr}
    (h : ItemsRearranged (e :: rest) others) :
    ∃ e' rest', others = e' :: rest' ∧ e.Rearranged e' ∧ ItemsRearranged rest rest' := by
  cases h with
  | cons he hrest => exact ⟨_, _, rfl, he, hrest⟩

namespace Expr

theorem toNumber_placeless : Placeless toNumber := by
  intro e e' h
  cases h with
  | number x a b => exact .refl _
  | _ => exact .failed _ _

theorem toWhole_placeless : Placeless toWhole := by
  intro e e' h
  refine (toNumber_placeless e e' h).bind fun x _ => ?_
  cases Decimal.wholeAbs? x with
  | none => exact .failed _ _
  | some n =>
    by_cases hx : x < 0.0 ∨ UInt32.size ≤ n
    · simp only [if_pos hx]
      exact .failed _ _
    · simp only [if_neg hx]
      exact .refl _

theorem toText_placeless : Placeless toText := by
  intro e e' h
  cases h with
  | text s a b => exact .refl _
  | _ => exact .failed _ _

theorem toName_placeless : Placeless toName := by
  intro e e' h
  cases h with
  | text s a b => exact .refl _
  | ident s a b => exact .refl _
  | _ => exact .failed _ _

theorem toFlag_placeless : Placeless toFlag := by
  intro e e' h
  cases h with
  | ident s a b =>
    by_cases htrue : s = "true"
    · subst htrue
      exact .refl _
    · by_cases hfalse : s = "false"
      · subst hfalse
        exact .refl _
      · have hother : ∀ span, toFlag (.ident s span) = .error (.meaningless .notFlag span) := by
          intro span
          unfold toFlag
          split
          · next heq =>
            cases heq
            exact absurd rfl htrue
          · next heq =>
            cases heq
            exact absurd rfl hfalse
          · rfl
        rw [hother, hother]
        exact .failed _ _
  | _ => exact .failed _ _

theorem toTexts_placeless : Placeless toTexts := by
  intro e e' h
  cases h with
  | list a b h => exact h.mapM toText_placeless
  | text s a b => exact .refl _
  | _ => exact .failed _ _

theorem toEnchantments_placeless : Placeless toEnchantments := by
  intro e e' h
  cases h with
  | dict a b h =>
    refine h.mapM fun key key' e e' hkey he => ?_
    refine (toWhole_placeless e e' he).bind fun level _ => ?_
    rw [hkey]
    exact .refl _
  | _ => exact .failed _ _

theorem toTarget_placeless : Placeless toTarget := by
  intro e e' h
  refine (toName_placeless e e' h).bind fun name _ => ?_
  cases Target.ofName? name with
  | none => exact .failed _ _
  | some t => exact .refl _

end Expr

/-- The names of named arguments. -/
def argumentNames (named : List (Name × Expr)) : List String := named.map (·.1.item)

theorem argumentNames_cons (key : Name) (e : Expr) (rest : List (Name × Expr)) :
    argumentNames ((key, e) :: rest) = key.item :: argumentNames rest := rfl

theorem EntriesRearranged.names {entries others : List (Name × Expr)}
    (h : EntriesRearranged entries others) : argumentNames entries = argumentNames others := by
  induction entries generalizing others with
  | nil =>
    cases h
    rfl
  | cons entry rest ih =>
    cases h with
    | cons hkey he hrest =>
      rw [argumentNames_cons, argumentNames_cons, hkey, ih hrest]

/-- A name has an argument in both or in neither. -/
theorem EntriesRearranged.find? {entries others : List (Name × Expr)}
    (h : EntriesRearranged entries others) (name : String) :
    (entries.find? (·.1.item == name) = none ∧ others.find? (·.1.item == name) = none) ∨
    ∃ key e key' e', entries.find? (·.1.item == name) = some (key, e) ∧
      others.find? (·.1.item == name) = some (key', e') ∧ e.Rearranged e' := by
  induction entries generalizing others with
  | nil =>
    cases h
    exact .inl ⟨rfl, rfl⟩
  | cons entry rest ih =>
    cases h with
    | @cons key key' e e' _ rest' hkey he hrest =>
      by_cases hname : key'.item = name
      · refine .inr ⟨key, e, key', e', ?_, ?_, he⟩
        · exact List.find?_cons_of_pos (by simpa [hkey] using hname)
        · exact List.find?_cons_of_pos (by simpa using hname)
      · rw [List.find?_cons_of_neg (by simpa [hkey] using hname),
          List.find?_cons_of_neg (by simpa using hname)]
        exact ih hrest

namespace Constructor

theorem checkNames_eq_ok {c : Constructor} {allowed seen : List String}
    {named : List (Name × Expr)} :
    c.checkNames allowed seen named = .ok () ↔
      (∀ name ∈ argumentNames named, name ∈ allowed ∧ name ∉ seen) ∧
        (argumentNames named).Nodup := by
  induction named generalizing seen with
  | nil => simp [checkNames, argumentNames]
  | cons entry rest ih =>
    obtain ⟨key, e⟩ := entry
    rw [checkNames, argumentNames_cons, List.nodup_cons, List.forall_mem_cons]
    by_cases hallowed : key.item ∈ allowed
    · by_cases hseen : key.item ∈ seen
      · simp [hallowed, hseen]
      · rw [if_neg (by simpa using hallowed), if_neg (by simpa using hseen), ih]
        constructor
        · rintro ⟨hall, hdistinct⟩
          refine ⟨⟨⟨hallowed, hseen⟩, fun name hname => ?_⟩, fun hmem => ?_, hdistinct⟩
          · exact ⟨(hall name hname).1, List.not_mem_of_not_mem_cons (hall name hname).2⟩
          · exact (hall _ hmem).2 List.mem_cons_self
        · rintro ⟨⟨_, hall⟩, hnew, hdistinct⟩
          refine ⟨fun name hname => ⟨(hall name hname).1, ?_⟩, hdistinct⟩
          have hne : name ≠ key.item := fun heq => hnew (heq ▸ hname)
          exact List.not_mem_cons_of_ne_of_not_mem hne (hall name hname).2
    · simp [hallowed]

theorem checkNamed_eq_ok {c : Constructor} {allowed : List String} :
    c.checkNamed allowed = .ok () ↔
      (∀ name ∈ argumentNames c.named, name ∈ allowed) ∧ (argumentNames c.named).Nodup := by
  rw [checkNamed, checkNames_eq_ok]
  simp

/-- Calls of one name whose arguments are the same but for the order of the named ones. -/
structure SameArguments (c c' : Constructor) : Prop where
  head : c.head.item = c'.head.item
  positional : ItemsRearranged c.positional c'.positional
  named : ∃ named, c.named.Perm named ∧ EntriesRearranged named c'.named

namespace SameArguments
variable {c c' : Constructor} (h : c.SameArguments c')
include h

theorem names : (argumentNames c.named).Perm (argumentNames c'.named) := by
  obtain ⟨named, hmoved, hnamed⟩ := h.named
  rw [← hnamed.names]
  exact hmoved.map _

theorem checkNamed (allowed : List String) :
    Agree (c.checkNamed allowed) (c'.checkNamed allowed) := by
  intro a
  cases a
  rw [checkNamed_eq_ok, checkNamed_eq_ok, h.names.nodup_iff]
  simp only [h.names.mem_iff]

/-- With each name given once it does not matter which argument is met first. -/
theorem named? {α : Type} {read : Expr → Except Failure α} (hread : Placeless read)
    (hdistinct : (argumentNames c.named).Nodup) (name : String) :
    Agree (c.named? name read) (c'.named? name read) := by
  obtain ⟨named, hmoved, hnamed⟩ := h.named
  have hfind : c.named.find? (·.1.item == name) = named.find? (·.1.item == name) :=
    find?_key_perm hmoved hdistinct name
  rw [Constructor.named?, Constructor.named?, hfind]
  obtain ⟨hnone, hnone'⟩ | ⟨key, e, key', e', hsome, hsome', he⟩ := hnamed.find? name
  · rw [hnone, hnone']
    exact .refl _
  · rw [hsome, hsome']
    exact (hread e e' he).bind fun a _ => .refl _

theorem one {e : Expr} (hc : c.positional = [e]) :
    ∃ e', c'.positional = [e'] ∧ e.Rearranged e' := by
  have hpositional := h.positional
  rw [hc] at hpositional
  obtain ⟨e', rest, hc', he, hrest⟩ := hpositional.of_cons
  rw [hrest.of_nil] at hc'
  exact ⟨e', hc', he⟩

theorem three {x y z : Expr} (hc : c.positional = [x, y, z]) :
    ∃ x' y' z', c'.positional = [x', y', z'] ∧ x.Rearranged x' ∧ y.Rearranged y' ∧
      z.Rearranged z' := by
  have hpositional := h.positional
  rw [hc] at hpositional
  obtain ⟨x', rest, hc', hx, hrest⟩ := hpositional.of_cons
  obtain ⟨y', rest, rfl, hy, hrest⟩ := hrest.of_cons
  obtain ⟨z', rest, rfl, hz, hrest⟩ := hrest.of_cons
  rw [hrest.of_nil] at hc'
  exact ⟨x', y', z', hc', hx, hy, hz⟩

/-- The wrong number of positional arguments is wrong in both. -/
theorem not_one (hc : ∀ e, c.positional = [e] → False) {e : Expr} (hc' : c'.positional = [e]) :
    False := by
  have hpositional := h.positional
  rw [hc'] at hpositional
  generalize hitems : c.positional = items at hpositional
  cases hpositional with
  | cons _ hrest =>
    cases hrest
    exact hc _ hitems

theorem not_three (hc : ∀ x y z, c.positional = [x, y, z] → False) {x y z : Expr}
    (hc' : c'.positional = [x, y, z]) : False := by
  have hpositional := h.positional
  rw [hc'] at hpositional
  generalize hitems : c.positional = items at hpositional
  cases hpositional with
  | cons _ hrest =>
    cases hrest with
    | cons _ hrest =>
      cases hrest with
      | cons _ hrest =>
        cases hrest
        exact hc _ _ _ hitems

theorem varRef (s : Session) : Agree (c.varRef s) (c'.varRef s) := by
  unfold Constructor.varRef
  split
  · next e hc =>
    obtain ⟨e', hc', he⟩ := h.one hc
    simp only [hc']
    refine (h.checkNamed _).bind fun _ _ => ?_
    refine (Expr.toName_placeless _ _ he).bind fun name _ => ?_
    cases s.resolve name with
    | ok v => exact .refl _
    | error error => exact .failed _ _
  · next hc =>
    split
    · next hc' => exact (h.not_one hc hc').elim
    · exact .failed _ _

theorem location : Agree c.location c'.location := by
  unfold Constructor.location
  split
  · next hc =>
    obtain ⟨x', y', z', hc', hx, hy, hz⟩ := h.three hc
    simp only [hc']
    refine (h.checkNamed _).bind fun _ hchecked => ?_
    obtain ⟨_, hdistinct⟩ := checkNamed_eq_ok.1 hchecked
    refine (Expr.toNumber_placeless _ _ hx).bind fun x _ => ?_
    refine (Expr.toNumber_placeless _ _ hy).bind fun y _ => ?_
    refine (Expr.toNumber_placeless _ _ hz).bind fun z _ => ?_
    refine (h.named? Expr.toNumber_placeless hdistinct _).bind fun pitch _ => ?_
    refine (h.named? Expr.toNumber_placeless hdistinct _).bind fun yaw _ => ?_
    refine (h.named? Expr.toText_placeless hdistinct _).bind fun world _ => ?_
    exact (h.named? Expr.toFlag_placeless hdistinct _).bind fun block _ => .refl _
  · next hc =>
    split
    · next hc' => exact (h.not_three hc hc').elim
    · exact .failed _ _

theorem vector : Agree c.vector c'.vector := by
  unfold Constructor.vector
  split
  · next hc =>
    obtain ⟨x', y', z', hc', hx, hy, hz⟩ := h.three hc
    simp only [hc']
    refine (h.checkNamed _).bind fun _ _ => ?_
    refine (Expr.toNumber_placeless _ _ hx).bind fun x _ => ?_
    refine (Expr.toNumber_placeless _ _ hy).bind fun y _ => ?_
    exact (Expr.toNumber_placeless _ _ hz).bind fun z _ => .refl _
  · next hc =>
    split
    · next hc' => exact (h.not_three hc hc').elim
    · exact .failed _ _

theorem item : Agree c.item c'.item := by
  unfold Constructor.item
  split
  · next hc =>
    obtain ⟨e', hc', he⟩ := h.one hc
    simp only [hc']
    refine (h.checkNamed _).bind fun _ hchecked => ?_
    obtain ⟨_, hdistinct⟩ := checkNamed_eq_ok.1 hchecked
    refine (Expr.toText_placeless _ _ he).bind fun material _ => ?_
    refine (h.named? Expr.toWhole_placeless hdistinct _).bind fun count _ => ?_
    refine (h.named? Expr.toText_placeless hdistinct _).bind fun name _ => ?_
    refine (h.named? Expr.toTexts_placeless hdistinct _).bind fun lore _ => ?_
    refine (h.named? Expr.toWhole_placeless hdistinct _).bind fun damage _ => ?_
    refine (h.named? Expr.toFlag_placeless hdistinct _).bind fun unbreakable _ => ?_
    refine (h.named? Expr.toEnchantments_placeless hdistinct _).bind fun enchantments _ => ?_
    exact (h.named? Expr.toText_placeless hdistinct _).bind fun nbt _ => .refl _
  · next hc =>
    split
    · next hc' => exact (h.not_one hc hc').elim
    · exact .failed _ _

theorem sound : Agree c.sound c'.sound := by
  unfold Constructor.sound
  split
  · next hc =>
    obtain ⟨e', hc', he⟩ := h.one hc
    simp only [hc']
    refine (h.checkNamed _).bind fun _ hchecked => ?_
    obtain ⟨_, hdistinct⟩ := checkNamed_eq_ok.1 hchecked
    refine (Expr.toText_placeless _ _ he).bind fun name _ => ?_
    refine (h.named? Expr.toNumber_placeless hdistinct _).bind fun pitch _ => ?_
    exact (h.named? Expr.toNumber_placeless hdistinct _).bind fun volume _ => .refl _
  · next hc =>
    split
    · next hc' => exact (h.not_one hc hc').elim
    · exact .failed _ _

theorem potion : Agree c.potion c'.potion := by
  unfold Constructor.potion
  split
  · next hc =>
    obtain ⟨e', hc', he⟩ := h.one hc
    simp only [hc']
    refine (h.checkNamed _).bind fun _ hchecked => ?_
    obtain ⟨_, hdistinct⟩ := checkNamed_eq_ok.1 hchecked
    refine (Expr.toText_placeless _ _ he).bind fun effect _ => ?_
    refine (h.named? Expr.toWhole_placeless hdistinct _).bind fun amplifier _ => ?_
    exact (h.named? Expr.toWhole_placeless hdistinct _).bind fun duration _ => .refl _
  · next hc =>
    split
    · next hc' => exact (h.not_one hc hc').elim
    · exact .failed _ _

theorem particle : Agree c.particle c'.particle := by
  unfold Constructor.particle
  split
  · next hc =>
    obtain ⟨e', hc', he⟩ := h.one hc
    simp only [hc']
    refine (h.checkNamed _).bind fun _ _ => ?_
    exact (Expr.toText_placeless _ _ he).bind fun name _ => .refl _
  · next hc =>
    split
    · next hc' => exact (h.not_one hc hc').elim
    · exact .failed _ _

theorem gameValue : Agree c.gameValue c'.gameValue := by
  unfold Constructor.gameValue
  split
  · next hc =>
    obtain ⟨e', hc', he⟩ := h.one hc
    simp only [hc']
    refine (h.checkNamed _).bind fun _ hchecked => ?_
    obtain ⟨_, hdistinct⟩ := checkNamed_eq_ok.1 hchecked
    refine (Expr.toText_placeless _ _ he).bind fun kind _ => ?_
    exact (h.named? Expr.toTarget_placeless hdistinct _).bind fun target _ => .refl _
  · next hc =>
    split
    · next hc' => exact (h.not_one hc hc').elim
    · exact .failed _ _

theorem value (s : Session) : Agree (c.value s) (c'.value s) := by
  unfold Constructor.value
  rw [← h.head]
  split
  · exact h.varRef s
  · exact h.location
  · exact h.vector
  · exact h.item
  · exact h.sound
  · exact h.potion
  · exact h.particle
  · exact h.gameValue
  · exact .failed _ _

end SameArguments
end Constructor

section Evaluation
variable (s : Session)

mutual

theorem Expr.Rearranged.value {e e' : Expr} (h : e.Rearranged e') :
    Agree (e.value s) (e'.value s) := by
  cases h with
  | text t a b => exact .refl _
  | number x a b => exact .refl _
  | ident name a b => exact .failed _ _
  | list a b hitems =>
    rw [Expr.value, Expr.value]
    exact hitems.valuesOf.bind fun vs _ => .refl _
  | dict a b hentries =>
    rw [Expr.value, Expr.value]
    exact hentries.entriesOf.bind fun vs _ => .refl _
  | call a b hhead hpositional hmoved hnamed =>
    rw [Expr.value, Expr.value]
    exact Constructor.SameArguments.value ⟨hhead, hpositional, _, hmoved, hnamed⟩ s

theorem ItemsRearranged.valuesOf {items others : List Expr} (h : ItemsRearranged items others) :
    Agree (valuesOf s items) (valuesOf s others) := by
  cases h with
  | nil => exact .refl _
  | cons he hrest => exact he.value.bind fun v _ => hrest.valuesOf.bind fun vs _ => .refl _

theorem EntriesRearranged.entriesOf {entries others : List (Name × Expr)}
    (h : EntriesRearranged entries others) : Agree (entriesOf s entries) (entriesOf s others) := by
  cases h with
  | nil => exact .refl _
  | cons hkey he hrest =>
    rw [Script.entriesOf, Script.entriesOf, hkey]
    exact he.value.bind fun v _ => hrest.entriesOf.bind fun vs _ => .refl _

end

end Evaluation

/-- Moving the named arguments of a call, with the positional ones kept in their order, changes
neither whether there is a value nor the value. This also holds for calls anywhere inside lists and
dictionaries of an argument list, in every session. -/
theorem value_rearranged (s : Session) :
    (∀ head args args' a b, positionalArgs args = positionalArgs args' →
      (namedArgs args).Perm (namedArgs args') →
      (Expr.call head args a).Rearranged (.call head args' b)) ∧
    (∀ e e' : Expr, e.Rearranged e' → ∀ v, e.value s = .ok v ↔ e'.value s = .ok v) ∧
    ∀ items others, ItemsRearranged items others →
      ∀ vs, valuesOf s items = .ok vs ↔ valuesOf s others = .ok vs := by
  refine ⟨fun head args args' a b hpositional hnamed => ?_, fun _ _ h => h.value s,
    fun _ _ h => h.valuesOf s⟩
  refine .call a b rfl ?_ hnamed (namedArgs_rearranged args')
  rw [hpositional]
  exact positionalArgs_rearranged args'

/-- An item in a dictionary in a list, with the arguments that it is written with. -/
def chest (args : List (Option Name × Expr)) : Expr :=
  .list [.dict [(⟨"loot", ⟨2, 8⟩⟩, .call ⟨"item", ⟨10, 14⟩⟩ args ⟨10, 60⟩)] ⟨1, 61⟩] ⟨0, 62⟩

def stoneArg : Option Name × Expr := (none, .text "stone" ⟨15, 22⟩)

def nameArg : Option Name × Expr := (some ⟨"name", ⟨24, 28⟩⟩, .text "Blade" ⟨30, 37⟩)

def flagArg : Option Name × Expr := (some ⟨"unbreakable", ⟨39, 50⟩⟩, .ident "true" ⟨52, 56⟩)

theorem value_rearranged_chest :
    (chest [stoneArg, nameArg, flagArg]).Rearranged (chest [flagArg, stoneArg, nameArg]) ∧
    ∃ v, (chest [stoneArg, nameArg, flagArg]).value Session.empty = .ok v ∧
      (chest [flagArg, stoneArg, nameArg]).value Session.empty = .ok v := by
  obtain ⟨hmoved, hvalue, _⟩ := value_rearranged Session.empty
  have hcall := hmoved ⟨"item", ⟨10, 14⟩⟩ [stoneArg, nameArg, flagArg]
    [flagArg, stoneArg, nameArg] ⟨10, 60⟩ ⟨10, 60⟩ rfl (.swap _ _ _)
  have hchest : (chest [stoneArg, nameArg, flagArg]).Rearranged
      (chest [flagArg, stoneArg, nameArg]) :=
    .list _ _ (.cons (.dict _ _ (.cons rfl hcall .nil)) .nil)
  have hfirst : ∃ v, (chest [stoneArg, nameArg, flagArg]).value Session.empty = .ok v := ⟨_, rfl⟩
  obtain ⟨v, hv⟩ := hfirst
  exact ⟨hchest, v, hv, (hvalue _ _ hchest v).1 hv⟩

end BlockTemplate.Script
