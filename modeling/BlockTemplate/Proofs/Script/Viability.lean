import BlockTemplate.Proofs.Script.Completeness
import BlockTemplate.Proofs.Script.Spelling

/-! What a parser does at a cursor: it reads something of the form meant, or stops where what it has
taken can still be completed. Either is decided by the tokens taken and the one after them. -/
namespace BlockTemplate.Script

/-- What may come after some tokens. -/
def after {α : Type} (form : Phrase α) (pre : Tokens) : Phrase α := fun ts a => form (pre ++ ts) a

def next {α : Type} (form : Phrase α) (t : Located Token) : Phrase α := fun ts a => form (t :: ts) a

/-- The tokens begin something of this form, and what completes them can be written. -/
def Viable {α : Type} (form : Phrase α) (pre : Tokens) : Prop :=
  ∃ more a, (∀ t ∈ more, t.item.Spellable) ∧ form (pre ++ more) a

/-- A token put in for a completion. Its place does not matter. -/
abbrev unplaced (t : Token) : Located Token := ⟨t, ⟨0, 0⟩⟩

/-- What was looked for could have come after these tokens. The end of input is looked for only
where `final` holds. -/
def Fits {α : Type} (final : Bool) (form : Phrase α) (pre : Tokens) : Expected → Prop
  | .keyword k => Viable form (pre ++ [unplaced (.keyword k)])
  | .punct p => Viable form (pre ++ [unplaced (.punct p)])
  | .endOfInput => final = true ∧ ∃ a, form pre a

/-- All that was looked for after `pre`, and before it if that is empty. -/
def TriedFits {α : Type} (final : Bool) (form : Phrase α) (pre : Tokens)
    (earlier tried : List Expected) : Prop :=
  ∀ x ∈ tried, (pre = [] ∧ x ∈ earlier) ∨ Fits final form pre x

/-- The parser does the same wherever `pre` is followed by the first token of `rest`, or by the end
if there is none, as long as the number that bounds it is not less than the number of tokens. -/
def Decided {α : Type} (p : Nat → Parse α) (c : Cursor) (pre rest : Tokens)
    (outcome : Tokens → Except Refusal (α × Cursor)) : Prop :=
  ∀ n more, more.head? = rest.head? → (pre ++ more).length ≤ n →
    p n ⟨pre ++ more, c.lastStop, c.tried⟩ = outcome more

/-- What the parser makes of a cursor. Only a word that is not known stops it anywhere else. -/
inductive Reads {α : Type} (final : Bool) (form : Phrase α) (p : Nat → Parse α) (c : Cursor) : Prop
  | done (pre rest : Tokens) (a : α) (tried : List Expected) (split : c.rest = pre ++ rest)
      (hform : form pre a) (fits : TriedFits final form pre c.tried tried)
      (decided : Decided p c pre rest fun more =>
        .ok (a, ⟨more, lastStopOf c.lastStop pre, tried⟩))
  | stuck (pre rest : Tokens) (tried : List Expected) (split : c.rest = pre ++ rest)
      (viable : Viable form pre) (fits : TriedFits final form pre c.tried tried)
      (decided : Decided p c pre rest fun _ =>
        .error (.unexpected rest.head? (lastStopOf c.lastStop pre) tried))
  | wrong (role : WordRole) (word : Name)
      (refused : ∀ n, c.rest.length ≤ n → p n c = .error (.unknownWord role word))

section Viable
variable {α β : Type} {final : Bool} {form : Phrase α} {whole : Phrase β}

theorem viable_of_form {pre : Tokens} {a : α} (h : form pre a) : Viable form pre :=
  ⟨[], a, by simp, by rwa [List.append_nil]⟩

theorem viable_with {pre : Tokens} {a : α} (more : List Token) (hmore : ∀ t ∈ more, t.Spellable)
    (h : form (pre ++ more.map unplaced) a) : Viable form pre :=
  ⟨more.map unplaced, a, by simpa using hmore, h⟩

theorem viable_after {pre ts : Tokens} : Viable (after form pre) ts ↔ Viable form (pre ++ ts) := by
  simp only [Viable, after, List.append_assoc]

theorem viable_after_nil {pre : Tokens} : Viable (after form pre) [] ↔ Viable form pre := by
  rw [viable_after, List.append_nil]

/-- A beginning of a part begins the whole if every such part can be gone on from. -/
theorem Viable.lift {pre : Tokens} (h : Viable form pre)
    (hgo : ∀ ts a, form ts a → Viable (after whole ts) []) : Viable whole pre := by
  obtain ⟨more, a, hmore, ha⟩ := h
  obtain ⟨others, b, hothers, hb⟩ := hgo _ a ha
  refine ⟨more ++ others, b, List.forall_mem_append.2 ⟨hmore, hothers⟩, ?_⟩
  rw [← List.append_assoc]
  exact hb

theorem Fits.lift {pre : Tokens} {x : Expected} (h : Fits false form pre x)
    (hgo : ∀ ts a, form ts a → Viable (after whole ts) []) : Fits final whole pre x := by
  cases x with
  | keyword k => exact Viable.lift h hgo
  | punct p => exact Viable.lift h hgo
  | endOfInput => cases h.1

theorem fits_after {pre ts : Tokens} {x : Expected} :
    Fits final (after form pre) ts x ↔ Fits final form (pre ++ ts) x := by
  cases x with
  | keyword k => rw [Fits, viable_after, Fits, List.append_assoc]
  | punct p => rw [Fits, viable_after, Fits, List.append_assoc]
  | endOfInput => rfl

theorem Viable.map {pre : Tokens} (h : Viable form pre) {g : α → β}
    (hg : ∀ ts a, form ts a → whole ts (g a)) : Viable whole pre := by
  obtain ⟨more, a, hmore, ha⟩ := h
  exact ⟨more, g a, hmore, hg _ a ha⟩

theorem TriedFits.map {pre : Tokens} {earlier tried : List Expected}
    (h : TriedFits final form pre earlier tried) {g : α → β}
    (hg : ∀ ts a, form ts a → whole ts (g a)) : TriedFits final whole pre earlier tried := by
  refine fun x hx => (h x hx).imp_right fun hfits => ?_
  cases x with
  | keyword k => exact Viable.map hfits hg
  | punct p => exact Viable.map hfits hg
  | endOfInput =>
    obtain ⟨hfinal, a, ha⟩ := hfits
    exact ⟨hfinal, g a, hg _ a ha⟩

theorem fits_next {t : Located Token} {ts : Tokens} {x : Expected} :
    Fits final (next form t) ts x ↔ Fits final form (t :: ts) x := by
  cases x <;> rfl

/-- What was looked for after a part and then after more of the whole. -/
theorem TriedFits.trans {pre ts : Tokens} {earlier tried later : List Expected}
    (h : TriedFits false form pre earlier tried)
    (hgo : ∀ ts a, form ts a → Viable (after whole ts) [])
    (hlater : TriedFits final (after whole pre) ts tried later) :
    TriedFits final whole (pre ++ ts) earlier later := by
  intro x hx
  obtain ⟨rfl, hx⟩ | hx := hlater x hx
  · rw [List.append_nil]
    exact (h x hx).imp_right fun hfits => hfits.lift hgo
  · exact .inr (fits_after.1 hx)

end Viable

theorem head?_append_congr {α : Type} {xs ys : List α} (h : xs.head? = ys.head?)
    (zs : List α) : (zs ++ xs).head? = (zs ++ ys).head? := by
  cases zs with
  | nil => exact h
  | cons z zs => rfl

namespace Decided
variable {α β : Type} {p : Nat → Parse α} {k : Nat → α → Parse β} {c : Cursor} {pre rest : Tokens}

/-- What the parser does at the cursor itself. -/
theorem self {outcome : Tokens → Except Refusal (α × Cursor)}
    (h : Decided p c pre rest outcome) (split : c.rest = pre ++ rest) {n : Nat}
    (hn : c.rest.length ≤ n) : p n c = outcome rest := by
  obtain ⟨crest, lastStop, tried⟩ := c
  obtain rfl : crest = pre ++ rest := split
  exact h n rest rfl hn

theorem bind_error {e : Refusal} (h : Decided p c pre rest fun _ => .error e) :
    Decided (fun n => p n >>= k n) c pre rest fun _ => .error e := by
  intro n more hhead hlen
  exact Parse.bind_of_error (h n more hhead hlen)

theorem bind {a : α} {lastStop : Nat} {tried : List Expected} {ts others : Tokens}
    {outcome : Tokens → Except Refusal (β × Cursor)}
    (hp : Decided p c pre rest fun more => .ok (a, ⟨more, lastStop, tried⟩))
    (hrest : rest = ts ++ others)
    (hk : Decided (fun n => k n a) ⟨rest, lastStop, tried⟩ ts others outcome) :
    Decided (fun n => p n >>= k n) c (pre ++ ts) others outcome := by
  intro n more hhead hlen
  rw [List.append_assoc] at hlen ⊢
  have hfirst := hp n (ts ++ more) (hrest ▸ head?_append_congr hhead ts) hlen
  rw [List.length_append] at hlen
  have hthen := hk n more hhead (by omega)
  exact (Parse.bind_of_ok hfirst).trans hthen

end Decided

namespace Reads
variable {α β : Type} {final : Bool} {form : Phrase α} {whole : Phrase β} {c : Cursor}

theorem pure {a : α} (h : form [] a) : Reads final form (fun _ => Pure.pure a) c :=
  .done [] c.rest a c.tried rfl h (fun _ hx => .inl ⟨rfl, hx⟩) fun _ _ _ _ => rfl

theorem refuse (h : Viable form []) : Reads final form (fun _ => Parse.refuse) c := by
  refine .stuck [] c.rest c.tried rfl h (fun _ hx => .inl ⟨rfl, hx⟩) fun n more hhead _ => ?_
  rw [← hhead]
  rfl

theorem unknownWord {role : WordRole} {word : Name} :
    Reads final form (fun _ => throw (.unknownWord role word)) c :=
  .wrong role word fun _ _ => rfl

/-- A part, and then the rest of the whole. -/
theorem bind {p : Nat → Parse α} {k : Nat → α → Parse β} (hp : Reads false form p c)
    (hgo : ∀ ts a, form ts a → Viable (after whole ts) [])
    (hk : ∀ ts a (d : Cursor), form ts a → c.rest = ts ++ d.rest →
      d.lastStop = lastStopOf c.lastStop ts → Reads final (after whole ts) (fun n => k n a) d) :
    Reads final whole (fun n => p n >>= k n) c := by
  cases hp with
  | wrong role word refused =>
    exact .wrong role word fun n hn => Parse.bind_of_error (refused n hn)
  | stuck pre rest tried split viable fits decided =>
    refine .stuck pre rest tried split (viable.lift hgo) ?_ decided.bind_error
    exact fun x hx => (fits x hx).imp_right fun hfits => hfits.lift hgo
  | done pre rest a tried split hform fits decided =>
    cases hk pre a ⟨rest, lastStopOf c.lastStop pre, tried⟩ hform split rfl with
    | wrong role word refused =>
      refine .wrong role word fun n hn => (Parse.bind_of_ok (decided.self split hn)).trans ?_
      rw [split, List.length_append] at hn
      exact refused n (Nat.le_trans (Nat.le_add_left _ _) hn)
    | stuck ts others later hrest viable hlater hthen =>
      refine .stuck (pre ++ ts) others later ?_ (viable_after.1 viable)
        (fits.trans hgo hlater) ?_
      · rw [split, List.append_assoc, ← hrest]
      · rw [lastStopOf_append]
        exact decided.bind hrest hthen
    | done ts others b later hrest hwhole hlater hthen =>
      refine .done (pre ++ ts) others b later ?_ hwhole (fits.trans hgo hlater) ?_
      · rw [split, List.append_assoc, ← hrest]
      · rw [lastStopOf_append]
        exact decided.bind hrest hthen

/-- After a token has been taken. -/
theorem taken {p q : Nat → Parse α} {t : Located Token} {rest : Tokens} (hc : c.rest = t :: rest)
    (hp : ∀ n more, p (n + 1) ⟨t :: more, c.lastStop, c.tried⟩ = q n ⟨more, t.span.stop, []⟩)
    (hq : Reads final (next form t) q ⟨rest, t.span.stop, []⟩) : Reads final form p c := by
  have hdecided : ∀ {ts others outcome}, Decided q ⟨rest, t.span.stop, []⟩ ts others outcome →
      Decided p c (t :: ts) others outcome := by
    intro ts others outcome hq n more hhead hlen
    rw [List.cons_append, List.length_cons] at hlen
    obtain ⟨n, rfl⟩ : ∃ m, n = m + 1 := ⟨n - 1, by omega⟩
    rw [List.cons_append, hp]
    exact hq n more hhead (by omega)
  have hfits : ∀ {ts tried}, TriedFits final (next form t) ts [] tried →
      TriedFits final form (t :: ts) c.tried tried := by
    intro ts tried h x hx
    obtain ⟨_, hx⟩ | hx := h x hx
    · cases hx
    · exact .inr (fits_next.1 hx)
  cases hq with
  | wrong role word refused =>
    refine .wrong role word fun n hn => ?_
    obtain ⟨crest, clast, ctried⟩ := c
    obtain rfl : crest = t :: rest := hc
    rw [List.length_cons] at hn
    obtain ⟨n, rfl⟩ : ∃ m, n = m + 1 := ⟨n - 1, by omega⟩
    rw [hp]
    exact refused n (by simpa using hn)
  | stuck ts others tried split viable fits decided =>
    exact .stuck (t :: ts) others tried (hc.trans (congrArg (t :: ·) split))
      viable (hfits fits) (hdecided decided)
  | done ts others a tried split hform fits decided =>
    exact .done (t :: ts) others a tried (hc.trans (congrArg (t :: ·) split)) hform (hfits fits)
      (hdecided decided)

/-- After something was looked for in vain. -/
theorem missed {p q : Nat → Parse α} (looked : List Expected)
    (hlooked : ∀ x ∈ looked, Fits final form [] x)
    (hp : ∀ n more, more.head? = c.rest.head? →
      p n ⟨more, c.lastStop, c.tried⟩ = q n ⟨more, c.lastStop, c.tried ++ looked⟩)
    (hq : Reads final form q ⟨c.rest, c.lastStop, c.tried ++ looked⟩) : Reads final form p c := by
  have hdecided : ∀ {ts others outcome}, c.rest = ts ++ others →
      Decided q ⟨c.rest, c.lastStop, c.tried ++ looked⟩ ts others outcome →
      Decided p c ts others outcome := by
    intro ts others outcome hsplit hq n more hhead hlen
    rw [hp n _ (hsplit ▸ head?_append_congr hhead ts)]
    exact hq n more hhead hlen
  have hfits : ∀ {ts tried}, TriedFits final form ts (c.tried ++ looked) tried →
      TriedFits final form ts c.tried tried := by
    intro ts tried h x hx
    obtain ⟨rfl, hx⟩ | hx := h x hx
    · exact (List.mem_append.1 hx).imp (fun hx => ⟨rfl, hx⟩) (hlooked x)
    · exact .inr hx
  cases hq with
  | wrong role word refused =>
    exact .wrong role word fun n hn => (hp n c.rest rfl).trans (refused n hn)
  | stuck ts others tried split viable fits decided =>
    exact .stuck ts others tried split viable (hfits fits) (hdecided split decided)
  | done ts others a tried split hform fits decided =>
    exact .done ts others a tried split hform (hfits fits) (hdecided split decided)

/-- The same run, seen another way. -/
theorem congr {p q : Nat → Parse α} (hq : Reads final form q c)
    (hp : ∀ n more, more.head? = c.rest.head? →
      p n ⟨more, c.lastStop, c.tried⟩ = q n ⟨more, c.lastStop, c.tried⟩) :
    Reads final form p c := by
  have hsame : c.tried ++ [] = c.tried := List.append_nil _
  exact missed [] (by simp) (by rwa [hsame]) (by rwa [hsame])

theorem take {f : Token → Option α} {looked : List Expected}
    {k : Nat → Option (Located α) → Parse β} (hlooked : ∀ x ∈ looked, Fits final whole [] x)
    (hsome : ∀ t rest a, c.rest = t :: rest → f t.item = some a →
      Reads final (next whole t) (fun n => k (n + 1) (some ⟨a, t.span⟩))
        ⟨rest, t.span.stop, []⟩)
    (hnone : ∀ tried, Reads final whole (fun n => k n none) ⟨c.rest, c.lastStop, tried⟩) :
    Reads final whole (fun n => Parse.take? looked f >>= k n) c := by
  by_cases hc : Avoids f c.rest
  · refine missed looked hlooked (fun n more hhead => ?_) (hnone _)
    have hmore : Avoids f more := by rwa [Avoids, hhead]
    exact Parse.bind_of_ok (Parse.take?_none hmore)
  · obtain ⟨t, rest, a, hrest, ha⟩ : ∃ t rest a, c.rest = t :: rest ∧ f t.item = some a := by
      cases hrest : c.rest with
      | nil => exact absurd (hrest ▸ avoids_nil) hc
      | cons t rest =>
        cases ha : f t.item with
        | none => exact absurd (hrest ▸ avoids_cons ha) hc
        | some a => exact ⟨t, rest, a, rfl, ha⟩
    exact taken hrest (fun n more => Parse.bind_of_ok (Parse.take?_some ha))
      (hsome t rest a hrest ha)

/-- A token that has to be there. -/
theorem want {f : Token → Option α} {looked : List Expected} {k : Nat → Located α → Parse β}
    (hlooked : ∀ x ∈ looked, Fits final whole [] x) (hviable : Viable whole [])
    (hk : ∀ t rest a, c.rest = t :: rest → f t.item = some a →
      Reads final (next whole t) (fun n => k (n + 1) ⟨a, t.span⟩) ⟨rest, t.span.stop, []⟩) :
    Reads final whole (fun n => Parse.orRefuse (Parse.take? looked f) >>= k n) c := by
  simp only [Parse.orRefuse, bind_assoc]
  refine take hlooked (fun t rest a hc ha => ?_) fun tried => ?_
  · simpa only [pure_bind] using hk t rest a hc ha
  · exact refuse hviable

theorem stop {k : Nat → Nat → Parse α} (hk : Reads final form (fun n => k n c.lastStop) c) :
    Reads final form (fun n => Parse.stop >>= k n) c :=
  hk.congr fun _ _ _ => rfl

theorem atEnd {k : Nat → Bool → Parse α}
    (hk : Reads final form (fun n => k n c.rest.isEmpty) c) :
    Reads final form (fun n => Parse.atEnd >>= k n) c := by
  refine hk.congr fun n more hhead => ?_
  have hempty : more.isEmpty = c.rest.isEmpty := by
    cases more <;> cases hrest : c.rest <;> simp [hrest] at hhead ⊢
  rw [← hempty]
  exact Parse.bind_of_ok (Parse.atEnd_eq _)

/-- Any larger bound will do. -/
theorem bounded {p : Nat → Parse α} (h : Reads final form p c) {g : Nat → Nat}
    (hg : ∀ n, n ≤ g n) : Reads final form (fun n => p (g n)) c := by
  cases h with
  | wrong role word refused =>
    exact .wrong role word fun n hn => refused (g n) (Nat.le_trans hn (hg n))
  | stuck ts others tried split viable fits decided =>
    exact .stuck ts others tried split viable fits fun n more hhead hlen =>
      decided (g n) more hhead (Nat.le_trans hlen (hg n))
  | done ts others a tried split hform fits decided =>
    exact .done ts others a tried split hform fits fun n more hhead hlen =>
      decided (g n) more hhead (Nat.le_trans hlen (hg n))

/-- A part with nothing more to read after it. -/
theorem bind_pure {p : Nat → Parse α} {g : α → β} (hp : Reads final form p c)
    (hg : ∀ ts a, form ts a → whole ts (g a)) :
    Reads final whole (fun n => p n >>= fun a => Pure.pure (g a)) c := by
  cases hp with
  | wrong role word refused =>
    exact .wrong role word fun n hn => Parse.bind_of_error (refused n hn)
  | stuck pre rest tried split viable fits decided =>
    exact .stuck pre rest tried split (viable.map hg) (fits.map hg) decided.bind_error
  | done pre rest a tried split hform fits decided =>
    refine .done pre rest (g a) tried split (hg pre a hform) (fits.map hg) ?_
    exact fun n more hhead hlen => Parse.bind_of_ok (decided n more hhead hlen)

theorem map {p : Nat → Parse α} {g : α → β} (hp : Reads final form p c)
    (hg : ∀ ts a, form ts a → whole ts (g a)) : Reads final whole (fun n => g <$> p n) c :=
  hp.bind_pure hg

theorem mono {p : Nat → Parse α} {other : Phrase α} (hp : Reads final form p c)
    (h : ∀ ts a, form ts a → other ts a) : Reads final other p c := by
  cases hp with
  | wrong role word refused => exact .wrong role word refused
  | stuck pre rest tried split viable fits decided =>
    exact .stuck pre rest tried split (viable.map (g := id) h) (fits.map (g := id) h) decided
  | done pre rest a tried split hform fits decided =>
    exact .done pre rest a tried split (h pre a hform) (fits.map (g := id) h) decided

end Reads

end BlockTemplate.Script
