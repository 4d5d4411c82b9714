import BlockTemplate.Proofs.Decimal.Double
import BlockTemplate.Proofs.Outcome
import BlockTemplate.Value.Encode

/-! The rules of each kind of value, in the order in which they are looked at. A value without
items of its own is written if it keeps all of them, and otherwise refused for the first one that
it breaks. -/
namespace BlockTemplate
open ValueError

/-- Something that is asked of a value, and the error where it is not so. -/
structure Rule where
  holds : Prop
  error : ValueError

namespace Rule

def finite (field : String) (x : Float) : Rule := ⟨x.isFinite = true, .nonFinite field⟩

/-- A bound that is no number excludes nothing. -/
def between (field : String) (x min max : Float) : Rule :=
  ⟨¬ x < min ∧ ¬ max < x, .outOfRange field x min max⟩

def finiteBetween (field : String) (x min max : Float) : List Rule :=
  [finite field x, between field x min max]

def natBetween (field : String) (n min max : Nat) : Rule :=
  ⟨min ≤ n ∧ n ≤ max, .outOfRange field (Float.ofNat n) (Float.ofNat min) (Float.ofNat max)⟩

def nonempty (field s : String) : Rule := ⟨s ≠ "", .empty field⟩

end Rule

def Location.rules (limits : Limits) (l : Location) : List Rule :=
  Rule.finiteBetween "location x" l.x (-limits.coordinateBound) limits.coordinateBound ++
  Rule.finiteBetween "location y" l.y (-limits.coordinateBound) limits.coordinateBound ++
  Rule.finiteBetween "location z" l.z (-limits.coordinateBound) limits.coordinateBound ++
  Rule.finiteBetween "location pitch" (l.pitch.getD 0.0) (-90.0) 90.0 ++
  Rule.finiteBetween "location yaw" (l.yaw.getD 0.0) (-180.0) 180.0

def Vector3.rules (v : Vector3) : List Rule :=
  [.finite "vector x" v.x, .finite "vector y" v.y, .finite "vector z" v.z]

def Enchantment.rules (e : Enchantment) : List Rule :=
  [.nonempty "enchantment id" e.id, .natBetween "enchantment level" e.level 1 maxLevel]

namespace Item

def materialRule (material : String) (c : Char) : Rule :=
  ⟨isIdChar c = true, .malformed "item material"
    ("unexpected character '" ++ c.toString ++ "' in '" ++ material ++ "'")⟩

def nbtRule (nbt : String) : Rule :=
  ⟨isCompound nbt = true,
    .malformed "item nbt" "expected a compound tag wrapped in braces"⟩

def rules (limits : Limits) (i : Item) : List Rule :=
  [.nonempty "item material" i.material] ++ i.material.toList.map (materialRule i.material) ++
  [.natBetween "item count" i.count 1 (min limits.maxStackSize largestStack)] ++
  [⟨i.lore.length ≤ limits.maxLoreLines,
    .tooMany "item lore" i.lore.length limits.maxLoreLines⟩] ++
  i.enchantments.flatMap Enchantment.rules ++ i.nbt.toList.map nbtRule

end Item

/-- The volume has no upper bound. -/
def Sound.rules (s : Sound) : List Rule :=
  [.nonempty "sound name" s.name] ++ Rule.finiteBetween "sound pitch" s.pitch 0.5 2.0 ++
  [.finite "sound volume" s.volume,
    ⟨¬ s.volume < 0.0, .outOfRange "sound volume" s.volume 0.0 maxFloat⟩]

def Potion.rules (p : Potion) : List Rule :=
  [.nonempty "potion effect" p.effect, .natBetween "potion amplifier" p.amplifier 0 maxAmplifier,
    .natBetween "potion duration" p.duration 0 maxDuration]

/-- What is asked of the value itself. Lists and dictionaries have no fields of their own. -/
def Value.rules (limits : Limits) : Value → List Rule
  | .text _ => []
  | .number x => [.finite "number" x]
  | .location l => l.rules limits
  | .vector v => v.rules
  | .item i => i.rules limits
  | .sound s => s.rules
  | .potion p => p.rules
  | .particle name => [.nonempty "particle type" name]
  | .gameValue g => [.nonempty "game value type" g.kind]
  | .variable v => [.nonempty "variable name" v.name]
  | .list _ | .dict _ => []

/-- The error of the first rule that is broken. -/
def FirstBroken (rules : List Rule) (e : ValueError) : Prop :=
  ∃ before r after, rules = before ++ r :: after ∧ (∀ q ∈ before, q.holds) ∧ ¬ r.holds ∧
    r.error = e

/-- Returns if all rules hold, and fails with the error of the first one that is broken. -/
def Follows {α : Type} (rules : List Rule) : Except ValueError α → Prop :=
  Meets (fun _ => ∀ r ∈ rules, r.holds) (FirstBroken rules)

namespace Follows
variable {α β : Type} {x : Except ValueError α} {f : α → Except ValueError β}
  {rules more : List Rule}

theorem ok (a : α) : Follows [] (.ok a) := by
  intro r hr
  cases hr

theorem cons_holds {r : Rule} (h : r.holds) (hx : Follows rules x) : Follows (r :: rules) x := by
  cases x with
  | ok a => exact List.forall_mem_cons.2 ⟨h, hx⟩
  | error e =>
    obtain ⟨before, broken, after, rfl, hbefore, hbroken⟩ := hx
    exact ⟨r :: before, broken, after, rfl, List.forall_mem_cons.2 ⟨h, hbefore⟩, hbroken⟩

theorem cons_broken {r : Rule} (h : ¬ r.holds) :
    Follows (r :: rules) (.error r.error : Except ValueError α) :=
  ⟨[], r, rules, rfl, by simp, h, rfl⟩

theorem append_holds (h : ∀ r ∈ rules, r.holds) (hx : Follows more x) :
    Follows (rules ++ more) x := by
  induction rules with
  | nil => exact hx
  | cons r rules ih =>
    obtain ⟨hr, hrules⟩ := List.forall_mem_cons.1 h
    exact cons_holds hr (ih hrules)

theorem bind (hx : Follows rules x) (hf : ∀ a, x = .ok a → Follows more (f a)) :
    Follows (rules ++ more) (x >>= f) := by
  cases x with
  | ok a => exact append_holds hx (hf a rfl)
  | error e =>
    obtain ⟨before, r, after, rfl, hbroken⟩ := hx
    exact ⟨before, r, after ++ more, by simp, hbroken⟩

theorem exists_ok (hx : Follows rules x) (h : ∀ r ∈ rules, r.holds) : ∃ a, x = .ok a := by
  cases x with
  | ok a => exact ⟨a, rfl⟩
  | error e =>
    obtain ⟨before, r, after, rfl, _, hbroken, _⟩ := hx
    exact absurd (h r (by simp)) hbroken

theorem returns (hx : Follows rules x) (g : α → β) :
    Follows rules (x >>= fun a => .ok (g a)) := by
  have h := hx.bind fun a _ => ok (g a)
  rwa [List.append_nil] at h

end Follows

section Checks

theorem requireFinite_follows (field : String) (x : Float) :
    Follows [.finite field x] (requireFinite field x) := by
  rw [requireFinite]
  split
  · next h => exact .cons_holds h (.ok ())
  · next h => exact .cons_broken (r := .finite field x) h

theorem requireRange_follows (field : String) (x min max : Float) :
    Follows (Rule.finiteBetween field x min max) (requireRange field x min max) := by
  refine (requireFinite_follows field x).bind fun _ _ => ?_
  split
  · next h => exact .cons_broken (r := .between field x min max) fun hr => h.elim hr.1 hr.2
  · next h => exact .cons_holds (not_or.1 h) (.ok ())

theorem requireNatRange_follows (field : String) (n min max : Nat) :
    Follows [.natBetween field n min max] (requireNatRange field n min max) := by
  rw [requireNatRange]
  split
  · next h =>
    refine .cons_broken (r := .natBetween field n min max) fun hr => ?_
    obtain ⟨hmin, hmax⟩ : min ≤ n ∧ n ≤ max := hr
    omega
  · next h => exact .cons_holds ⟨by omega, by omega⟩ (.ok ())

theorem requireText_follows (field s : String) :
    Follows [.nonempty field s] (requireText field s) := by
  rw [requireText]
  split
  · next h => exact .cons_broken (r := .nonempty field s) fun hr => hr h
  · next h => exact .cons_holds h (.ok ())

end Checks

/-- The second look at finiteness finds nothing new. -/
theorem requireCoordinate_eq (field : String) (x bound : Float) :
    requireCoordinate field x bound = requireRange field x (-bound) bound := by
  rw [requireCoordinate, requireRange]
  cases requireFinite field x <;> rfl

theorem Location.encode_follows (limits : Limits) (l : Location) :
    Follows (l.rules limits) (l.encode limits) := by
  simp only [rules, List.append_assoc, Location.encode, requireCoordinate_eq]
  refine (requireRange_follows _ _ _ _).bind fun _ _ => ?_
  refine (requireRange_follows _ _ _ _).bind fun _ _ => ?_
  refine (requireRange_follows _ _ _ _).bind fun _ _ => ?_
  refine (requireRange_follows _ _ _ _).bind fun _ _ => ?_
  exact (requireRange_follows _ _ _ _).returns _

theorem Vector3.encode_follows (v : Vector3) : Follows v.rules v.encode := by
  refine (requireFinite_follows _ _).bind fun _ _ => ?_
  refine (requireFinite_follows _ _).bind fun _ _ => ?_
  exact (requireFinite_follows _ _).returns _

namespace Item

theorem checkEnchantments_follows (enchantments : List Enchantment) :
    Follows (enchantments.flatMap Enchantment.rules) (checkEnchantments enchantments) := by
  induction enchantments with
  | nil => exact .ok ()
  | cons e rest ih =>
    rw [List.flatMap_cons]
    refine (requireText_follows _ _).bind fun _ _ => ?_
    exact (requireNatRange_follows _ _ _ _).bind fun _ _ => ih

theorem checkNbt_follows (nbt : Option String) :
    Follows (nbt.toList.map nbtRule) (checkNbt nbt) := by
  cases nbt with
  | none => exact .ok ()
  | some nbt =>
    rw [checkNbt]
    split
    · next h => exact .cons_holds h (.ok ())
    · next h => exact .cons_broken (r := nbtRule nbt) h

theorem check_follows (limits : Limits) (i : Item) :
    Follows (i.rules limits) (i.check limits) := by
  simp only [rules, List.append_assoc]
  refine (requireText_follows _ _).bind fun _ _ => ?_
  dsimp only
  split
  · next bad hbad =>
    -- The characters before the first bad one are fine.
    obtain ⟨hchar, before, after, heq, hbefore⟩ := List.find?_eq_some_iff_append.1 hbad
    rw [heq, List.map_append, List.append_assoc]
    refine .append_holds ?_ (.cons_broken (r := materialRule i.material bad) ?_)
    · simpa [materialRule] using hbefore
    · simpa [materialRule] using hchar
  · next hnone =>
    refine .append_holds (by simpa [materialRule] using hnone) ?_
    refine (requireNatRange_follows _ _ _ _).bind fun _ _ => ?_
    split
    · next h => exact .cons_broken (r := ⟨_, _⟩) (Nat.not_le_of_lt h)
    · next h =>
      refine .cons_holds (Nat.le_of_not_lt h) ?_
      exact (checkEnchantments_follows _).bind fun _ _ => checkNbt_follows _

theorem encode_follows (limits : Limits) (i : Item) :
    Follows (i.rules limits) (i.encode limits) :=
  (i.check_follows limits).returns _

end Item

section Volume
open Decimal Float.Model Float.Model.UnpackedFloat

theorem lt_iff_unpack {x y : Float} :
    x < y ↔ UnpackedFloat.lt x.toModel.unpack y.toModel.unpack = true := by
  change Float.lt x y = true ↔ _
  rw [Float.lt, decide_eq_true_iff]
  exact Iff.rfl

theorem binary_maxFloat : binary maxFloat = ⟨false, 0x1fffffffffffff, 971⟩ := by
  have hbits : maxFloat.toBits.toNat = 0x7fefffffffffffff := by decide +kernel
  rw [binary_eq_ofWord, hbits]
  rfl

/-- No finite double is above the largest one. -/
theorem not_maxFloat_lt {x : Float} (h : x.isFinite = true) : ¬ maxFloat < x := by
  have hcanonical := binary_canonical h
  have hmantissa := hcanonical.mantissa
  have hexponent := hcanonical.high
  rw [leadingBit] at hmantissa
  have hmax : maxFloat.isFinite = true := by decide +kernel
  rw [lt_iff_unpack, unpack_eq_binary hmax, binary_maxFloat, unpack_eq_binary h]
  by_cases hzero : (binary x).mantissa = 0
  · have hunpacked : (binary x).unpacked = .zero (binary x).sign := dif_pos hzero
    rw [hunpacked]
    exact Bool.false_ne_true
  · have hunpacked : (binary x).unpacked = .finite (binary x).sign (binary x).mantissa
        (binary x).exponent (Nat.pos_of_ne_zero hzero) := dif_neg hzero
    rw [hunpacked, Binary.sign]
    cases (binary x).negative with
    | true => exact Bool.false_ne_true
    | false =>
      have hcompare : ¬ (compare 971 (binary x).exponent).then
          (compare 0x1fffffffffffff (binary x).mantissa) = .lt := by
        rw [Ordering.then_eq_lt, Int.compare_eq_lt, Int.compare_eq_eq, Nat.compare_eq_lt]
        omega
      exact fun hlt => hcompare (Option.some.inj (eq_of_beq hlt))

/-- The bound that an error names is kept, though it is not looked at. -/
theorem requireVolume_eq (x : Float) :
    requireVolume x = requireRange "sound volume" x 0.0 maxFloat := by
  rw [requireVolume, requireRange, requireFinite]
  split
  · next h => simp [not_maxFloat_lt h]
  · rfl

end Volume

theorem requireVolume_follows (x : Float) :
    Follows [.finite "sound volume" x, ⟨¬ x < 0.0, .outOfRange "sound volume" x 0.0 maxFloat⟩]
      (requireVolume x) := by
  refine (requireFinite_follows _ _).bind fun _ _ => ?_
  split
  · next h => exact .cons_broken (r := ⟨_, _⟩) (Classical.not_not.2 h)
  · next h => exact .cons_holds h (.ok ())

theorem Sound.encode_follows (s : Sound) : Follows s.rules s.encode := by
  simp only [rules, List.append_assoc]
  refine (requireText_follows _ _).bind fun _ _ => ?_
  refine (requireRange_follows _ _ _ _).bind fun _ _ => ?_
  exact (requireVolume_follows _).returns _

theorem Potion.encode_follows (p : Potion) : Follows p.rules p.encode := by
  refine (requireText_follows _ _).bind fun _ _ => ?_
  refine (requireNatRange_follows _ _ _ _).bind fun _ _ => ?_
  exact (requireNatRange_follows _ _ _ _).returns _

end BlockTemplate
