/-! Computations that may fail: taken apart at their first step, and judged by what they return or
fail with. -/
namespace BlockTemplate
variable {ε α β : Type} {x : Except ε α} {f : α → Except ε β} {b : β} {e : ε}

theorem bind_eq_ok : (x >>= f) = .ok b ↔ ∃ a, x = .ok a ∧ f a = .ok b := by
  cases x <;> simp [bind, Except.bind]

theorem bind_eq_error : (x >>= f) = .error e ↔ x = .error e ∨ ∃ a, x = .ok a ∧ f a = .error e := by
  cases x <;> simp [bind, Except.bind]

theorem bind_cons_eq_ok {y : Except ε (List α)} {l : List α} :
    (x >>= fun a => y >>= fun rest => pure (a :: rest)) = .ok l ↔
      ∃ a rest, x = .ok a ∧ y = .ok rest ∧ l = a :: rest := by
  cases x <;> cases y <;> simp [bind, Except.bind, pure, Except.pure, eq_comm]

theorem mapError_eq_ok {δ : Type} {g : ε → δ} {a : α} : x.mapError g = .ok a ↔ x = .ok a := by
  cases x with
  | ok a =>
    change Except.ok _ = Except.ok _ ↔ _
    simp
  | error e =>
    change Except.error _ = Except.ok _ ↔ _
    simp

theorem mapError_eq_error {δ : Type} {g : ε → δ} {d : δ} :
    x.mapError g = .error d ↔ ∃ e, x = .error e ∧ d = g e := by
  cases x with
  | ok a =>
    change Except.ok _ = Except.error _ ↔ _
    simp
  | error e =>
    change Except.error _ = Except.error _ ↔ _
    simp [eq_comm]

theorem mapError_bind {δ : Type} (g : ε → δ) (x : Except ε α) (f : α → Except ε β) :
    (x >>= f).mapError g = x.mapError g >>= fun a => (f a).mapError g := by
  cases x <;> rfl

instance decidableEqError [DecidableEq ε] (x : Except ε α) (e : ε) : Decidable (x = .error e) :=
  match x with
  | .ok _ => isFalse nofun
  | .error d => decidable_of_iff (d = e) (by simp)

/-- A result is known to be there once some part of it is. -/
theorem exists_ok_of_map {g : α → β} (h : x.toOption.map g = some b) :
    ∃ a, x = .ok a ∧ g a = b := by
  cases x with
  | ok a => exact ⟨a, rfl, Option.some.inj h⟩
  | error e => cases h

/-- What is returned is good, what is failed with is bad in a known way. -/
def Meets (good : α → Prop) (bad : ε → Prop) : Except ε α → Prop
  | .ok a => good a
  | .error e => bad e

namespace Meets
variable {good : α → Prop} {fine : β → Prop} {bad : ε → Prop}

theorem bind (hx : Meets good bad x) (hf : ∀ a, good a → Meets fine bad (f a)) :
    Meets fine bad (x >>= f) := by
  cases x with
  | ok a => exact hf a hx
  | error e => exact hx

theorem mono {better : α → Prop} {worse : ε → Prop} (hx : Meets good bad x)
    (hgood : ∀ a, good a → better a) (hbad : ∀ e, bad e → worse e) : Meets better worse x := by
  cases x with
  | ok a => exact hgood a hx
  | error e => exact hbad e hx

theorem of_ok (hx : Meets good bad x) {a : α} (h : x = .ok a) : good a := by
  subst h
  exact hx

theorem of_error (hx : Meets good bad x) (h : x = .error e) : bad e := by
  subst h
  exact hx

/-- What is returned is kept in view. -/
theorem returned (hx : Meets good bad x) : Meets (fun a => x = .ok a) bad x := by
  cases x with
  | ok a => rfl
  | error e => exact hx

end Meets

end BlockTemplate
