import BlockTemplate.Proofs.Outcome
import BlockTemplate.Proofs.Script.Lexing
import BlockTemplate.Proofs.Script.Lookahead

/-! Parsing keeps places in order: what has been read lies between the point where reading began and
the end of the last token taken. -/
namespace BlockTemplate.Script

/-- A sound range between two offsets. -/
structure Span.Inside (cut : Nat → Prop) (low high : Nat) (s : Span) : Prop where
  sound : s.Sound cut
  low : low ≤ s.start
  high : s.stop ≤ high

theorem Span.Inside.wider {cut : Nat → Prop} {low high higher : Nat} {s : Span}
    (h : s.Inside cut low high) (hle : high ≤ higher) : s.Inside cut low higher :=
  ⟨h.sound, h.low, Nat.le_trans h.high hle⟩

/-- The tokens left are in order, and the last of them ends at `last`. -/
structure Cursor.Sound (cut : Nat → Prop) (last : Nat) (c : Cursor) : Prop where
  ordered : Ordered cut c.lastStop c.rest
  cutStop : cut c.lastStop
  last : lastStopOf c.lastStop c.rest = last

/-- A refusal at the end of input comes after the last token. -/
def Refusal.Sound (cut : Nat → Prop) (last : Nat) : Refusal → Prop
  | .unexpected (some found) _ _ => found.span.Sound cut
  | .unexpected none lastStop _ => lastStop = last
  | .unknownWord _ word => word.span.Sound cut

theorem Cursor.Sound.refuse {α : Type} {cut : Nat → Prop} {last : Nat} {c : Cursor}
    {good : α × Cursor → Prop} (hc : c.Sound cut last) :
    Meets good (Refusal.Sound cut last) (Parse.refuse c) := by
  cases hrest : c.rest with
  | nil =>
    have hlast := hc.last
    rw [hrest, lastStopOf] at hlast
    simpa [Parse.refuse, Meets, Refusal.Sound, hrest] using hlast
  | cons t rest =>
    have hordered := hc.ordered
    rw [hrest] at hordered
    simpa [Parse.refuse, Meets, Refusal.Sound, hrest] using hordered.2.1

/-- If the places known so far lie before the cursor, then so do those found by `p` after it. -/
def Finds {α : Type} (cut : Nat → Prop) (last : Nat) (known : List Span) (p : Parse α)
    (found : α → List Span) : Prop :=
  ∀ (c : Cursor) (low : Nat), c.Sound cut last → low ≤ c.lastStop →
    (∀ s ∈ known, s.Inside cut low c.lastStop) →
      Meets (fun r : α × Cursor => r.2.Sound cut last ∧ c.lastStop ≤ r.2.lastStop ∧
        ∀ s ∈ found r.1, s.Inside cut low r.2.lastStop) (Refusal.Sound cut last) (p c)

namespace Finds
variable {α β : Type} {cut : Nat → Prop} {last : Nat} {known : List Span} {p : Parse α}

theorem mono {found kept : α → List Span} {more : List Span} (h : Finds cut last known p found)
    (hmore : known ⊆ more) (hkept : ∀ a, kept a ⊆ found a) : Finds cut last more p kept := by
  intro c low hc hlow hknown
  refine (h c low hc hlow fun s hs => hknown s (hmore hs)).mono ?_ fun _ => id
  rintro ⟨a, c'⟩ ⟨hc', hle, hfound⟩
  exact ⟨hc', hle, fun s hs => hfound s (hkept a hs)⟩

theorem pure {found : α → List Span} {a : α} (h : found a ⊆ known) :
    Finds cut last known (Pure.pure a) found := by
  intro c low hc hlow hknown
  exact ⟨hc, Nat.le_refl _, fun s hs => hknown s (h hs)⟩

theorem bind {found : α → List Span} {f : α → Parse β} {final : β → List Span}
    (hp : Finds cut last known p found) (hf : ∀ a, Finds cut last (found a) (f a) final) :
    Finds cut last known (p >>= f) final := by
  intro c low hc hlow hknown
  refine Meets.bind (hp c low hc hlow hknown) ?_
  rintro ⟨a, c'⟩ ⟨hc', hle, hfound⟩
  refine (hf a c' low hc' (Nat.le_trans hlow hle) hfound).mono ?_ fun _ => id
  rintro ⟨b, c''⟩ ⟨hc'', hle', hfinal⟩
  exact ⟨hc'', Nat.le_trans hle hle', hfinal⟩

theorem map {found : α → List Span} {g : α → β} {final : β → List Span}
    (hp : Finds cut last known p found) (hg : ∀ a, final (g a) ⊆ found a) :
    Finds cut last known (g <$> p) final := by
  intro c low hc hlow hknown
  refine Meets.bind (hp c low hc hlow hknown) ?_
  rintro ⟨a, c'⟩ ⟨hc', hle, hfound⟩
  exact ⟨hc', hle, fun s hs => hfound s (hg a hs)⟩

theorem refuse {found : α → List Span} : Finds cut last known Parse.refuse found :=
  fun _ _ hc _ _ => hc.refuse

theorem unknownWord {found : α → List Span} {role : WordRole} {word : Name}
    (h : word.span ∈ known) :
    Finds cut last known (throw (.unknownWord role word) : Parse α) found := by
  intro c low _ _ hknown
  exact (hknown _ h).sound

/-- A token taken lies between the old and the new end, and so does what is made of it at its own
place. -/
theorem takeMaking (looked : List Expected) {f : Token → Option α} (made : Located α → List Span)
    (hmade : ∀ t a span, f t = some a → made ⟨a, span⟩ ⊆ [span]) :
    Finds cut last known (Parse.take? looked f) fun o => o.toList.flatMap made ++ known := by
  intro c low hc hlow hknown
  unfold Parse.take?
  split
  · exact ⟨⟨hc.ordered, hc.cutStop, hc.last⟩, Nat.le_refl _, by simpa using hknown⟩
  · next t span rest hrest =>
    have hordered := hc.ordered
    have hlast := hc.last
    rw [hrest] at hordered hlast
    obtain ⟨hstart, hspan, hafter⟩ := hordered
    have hle : c.lastStop ≤ span.stop := Nat.le_trans hstart hspan.ordered
    split
    · next a ha =>
      refine ⟨⟨hafter, hspan.stop, hlast⟩, hle, ?_⟩
      intro s hs
      simp only [Option.toList_some, List.flatMap_singleton, List.mem_append] at hs
      obtain hs | hs := hs
      · obtain rfl := List.mem_singleton.1 (hmade t a span ha hs)
        exact ⟨hspan, Nat.le_trans hlow hstart, Nat.le_refl _⟩
      · exact (hknown s hs).wider hle
    · exact ⟨⟨hc.ordered, hc.cutStop, hc.last⟩, Nat.le_refl _, by simpa using hknown⟩

theorem take? (looked : List Expected) (f : Token → Option α) :
    Finds cut last known (Parse.take? looked f) fun o => o.toList.map (·.span) ++ known := by
  refine (takeMaking looked (fun x => [x.span]) (by simp)).mono (List.Subset.refl _) fun o => ?_
  cases o <;> simp

theorem orRefuse (looked : List Expected) (f : Token → Option α) :
    Finds cut last known (Parse.orRefuse (Parse.take? looked f)) fun x => x.span :: known := by
  refine (take? looked f).bind fun o => ?_
  cases o with
  | none => exact .refuse
  | some a => exact .pure (by simp)

/-- From the start of something read to the end of the last token taken. -/
theorem stop {f : Nat → Parse β} {final : β → List Span} (opening : Span)
    (hopening : opening ∈ known)
    (hf : ∀ n, Finds cut last (⟨opening.start, n⟩ :: known) (f n) final) :
    Finds cut last known (Parse.stop >>= f) final := by
  intro c low hc hlow hknown
  refine hf c.lastStop c low hc hlow ?_
  intro s hs
  obtain rfl | hs := List.mem_cons.1 hs
  · obtain ⟨hsound, hlow', hhigh⟩ := hknown opening hopening
    exact ⟨⟨Nat.le_trans hsound.ordered hhigh, hsound.start, hc.cutStop⟩, hlow', Nat.le_refl _⟩
  · exact hknown s hs

end Finds

end BlockTemplate.Script
