import BlockTemplate.Proofs.Script.Lookahead

/-! An attempt that may go back does the same as a parser that never does. Where the parser reads
something the attempt reads it too. Where the parser refuses, the attempt keeps that refusal: it
fails, or goes on with less, before a token that nothing after it can take. -/
namespace BlockTemplate.Script

/-- They differ at most in the order of what was looked for. -/
inductive Refusal.Alike : Refusal → Refusal → Prop
  | unexpected {found : Option (Located Token)} {lastStop : Nat} {tried others : List Expected}
      (same : ∀ x, x ∈ tried ↔ x ∈ others) :
      Alike (.unexpected found lastStop tried) (.unexpected found lastStop others)
  | unknownWord {role : WordRole} {word : Name} :
      Alike (.unknownWord role word) (.unknownWord role word)

abbrev Cursor.place (c : Cursor) : Place := ⟨c.rest, c.lastStop⟩

namespace Kept
variable {k : Kept} {c d : Cursor} {p : Place} {n m : Nat} {looked more : List Expected}

/-- What was looked for at the cursor is kept, and nothing further on. -/
def Notes (k : Kept) (c : Cursor) : Prop :=
  (c.rest.length < k.left ∧ c.tried = []) ∨
    (k.left = c.rest.length ∧
      k.refusal.Alike (.unexpected c.rest.head? c.lastStop c.tried))

/-- Failures with this many tokens left, or more, do not replace it. -/
def Settled (k : Kept) (n : Nat) : Prop :=
  k.left < n ∨ (k.left = n ∧ ∃ role word, k.refusal = .unknownWord role word)

theorem Notes.le (h : k.Notes c) : c.rest.length ≤ k.left := by
  obtain ⟨hlt, -⟩ | ⟨heq, -⟩ := h
  · exact Nat.le_of_lt hlt
  · exact Nat.le_of_eq heq.symm

theorem notes_of_lt {rest : Tokens} {lastStop : Nat} (h : rest.length < k.left) :
    k.Notes ⟨rest, lastStop, []⟩ :=
  .inl ⟨h, rfl⟩

theorem Settled.mono (h : k.Settled m) (hle : m ≤ n) : k.Settled n := by
  obtain hlt | ⟨heq, hword⟩ := h
  · exact .inl (Nat.lt_of_lt_of_le hlt hle)
  · obtain hlt | rfl := Nat.lt_or_eq_of_le hle
    · exact .inl (heq ▸ hlt)
    · exact .inr ⟨heq, hword⟩

theorem Settled.join (h : k.Settled p.rest.length) : k.join p looked = k := by
  obtain hlt | ⟨heq, role, word, hword⟩ := h
  · simp [Kept.join, hlt, Nat.not_lt_of_gt hlt]
  · simp [Kept.join, heq, hword]

theorem join_join : (k.join p looked).join p more = k.join p (looked ++ more) := by
  obtain ⟨left, refusal⟩ := k
  obtain hlt | rfl | hgt := Nat.lt_trichotomy p.rest.length left
  · simp [Kept.join, hlt]
  · cases refusal <;> simp [Kept.join]
  · simp [Kept.join, hgt, Nat.not_lt_of_gt hgt]

theorem le_left_join (h : p.rest.length ≤ k.left) : p.rest.length ≤ (k.join p looked).left := by
  unfold Kept.join
  split
  · exact Nat.le_refl _
  · split
    · exact h
    · split <;> exact h

/-- A failure at the cursor is kept together with those noted there. -/
theorem Notes.join (h : k.Notes c) (looked : List Expected) :
    (k.join c.place looked).left = c.rest.length ∧
      (k.join c.place looked).refusal.Alike
        (.unexpected c.rest.head? c.lastStop (c.tried ++ looked)) := by
  obtain ⟨hlt, hnil⟩ | ⟨heq, halike⟩ := h
  · simp only [Kept.join, hlt, if_true, hnil, List.nil_append]
    exact ⟨trivial, .unexpected fun _ => Iff.rfl⟩
  · obtain ⟨left, refusal⟩ := k
    obtain rfl : left = c.rest.length := heq
    cases halike with
    | unexpected same =>
      simp only [Kept.join, Nat.lt_irrefl, if_false]
      exact ⟨trivial, .unexpected fun x => by simp [same]⟩

theorem Notes.joined (h : k.Notes c) (looked : List Expected) :
    (k.join c.place looked).Notes ⟨c.rest, c.lastStop, c.tried ++ looked⟩ :=
  .inr (h.join looked)

/-- A failure before the cursor changes nothing of what is noted at it. -/
theorem Notes.join_before (h : k.Notes c) (hlt : c.rest.length < p.rest.length) :
    (k.join p looked).Notes c := by
  obtain ⟨hleft, hnil⟩ | ⟨heq, halike⟩ := h
  · refine .inl ⟨?_, hnil⟩
    unfold Kept.join
    split
    · exact hlt
    · split
      · exact hleft
      · split <;> exact hleft
  · rw [Settled.join (.inl (heq ▸ hlt))]
    exact .inr ⟨heq, halike⟩

end Kept

namespace Attempt
variable {α β : Type} {g h : Attempt α} {f : α → Attempt β} {p q : Place} {k l : Kept} {a : α}

theorem bind_of_some (hg : g p k = (some (a, q), l)) : (g >>= f) p k = f a q l := by
  simp only [bind, StateT.bind, OptionT.bind, OptionT.mk, hg]

theorem bind_of_none (hg : g p k = (none, l)) : (g >>= f) p k = (none, l) := by
  simp only [bind, StateT.bind, OptionT.bind, OptionT.mk, hg]
  rfl

theorem orElse_of_some (hg : g p k = (some (a, q), l)) : (g <|> h) p k = (some (a, q), l) :=
  congrArg (fun r => OptionT.orElse (m := StateM Kept) (fun _ => r) (fun _ => h p) k) hg

theorem orElse_of_none (hg : g p k = (none, l)) : (g <|> h) p k = h p l :=
  congrArg (fun r => OptionT.orElse (m := StateM Kept) (fun _ => r) (fun _ => h p) k) hg

theorem token_of_some {looked : List Expected} {f : Token → Option α} {t : Token} {span : Span}
    {rest : Tokens} (hp : p.rest = ⟨t, span⟩ :: rest) (ht : f t = some a) :
    token looked f p k = (some (⟨a, span⟩, ⟨rest, span.stop⟩), k) := by
  simp only [token, hp, ht]
  rfl

theorem punct_of_next {b : Punct} {span : Span} {rest : Tokens}
    (hp : p.rest = ⟨.punct b, span⟩ :: rest) :
    punct b p k = (some (⟨(), span⟩, ⟨rest, span.stop⟩), k) :=
  token_of_some hp (asPunct_self b)

theorem ident_next {s : String} {span : Span} {rest : Tokens} {lastStop : Nat} :
    ident ⟨⟨.ident s, span⟩ :: rest, lastStop⟩ k = (some (⟨s, span⟩, ⟨rest, span.stop⟩), k) :=
  rfl

theorem keyword_next {w : Keyword} {span : Span} {rest : Tokens} {lastStop : Nat} :
    keyword w ⟨⟨.keyword w, span⟩ :: rest, lastStop⟩ k =
      (some (⟨(), span⟩, ⟨rest, span.stop⟩), k) :=
  token_of_some rfl (asKeyword_self w)

theorem spanned_of_some {g : Attempt (Span → α)} (make : Span → α)
    (hg : g p k = (some (make, q), l)) :
    spanned g p k = (some (make ⟨p.start, q.lastStop⟩, q), l) := by
  simp only [spanned, bind, OptionT.bind, StateT.bind, OptionT.mk, hg]
  rfl

theorem spanned_of_none {g : Attempt (Span → α)} (hg : g p k = (none, l)) :
    spanned g p k = (none, l) := by
  simp only [spanned, bind, OptionT.bind, StateT.bind, OptionT.mk, hg]
  rfl

theorem check_of_ok {role : WordRole} {f : α → Except Name β} {b : β}
    (hg : g p k = (some (a, q), l)) (hf : f a = .ok b) : check role g f p k = (some (b, q), l) := by
  simp only [check, bind, OptionT.bind, StateT.bind, OptionT.mk, hg, hf]
  rfl

theorem check_of_error {role : WordRole} {f : α → Except Name β} {word : Name}
    (hg : g p k = (some (a, q), l)) (hf : f a = .error word) :
    check role g f p k = (none, ⟨p.rest.length, .unknownWord role word⟩) := by
  simp only [check, bind, OptionT.bind, StateT.bind, OptionT.mk, hg, hf]

theorem check_of_none {role : WordRole} {f : α → Except Name β} (hg : g p k = (none, l)) :
    check role g f p k = (none, l) := by
  simp only [check, bind, OptionT.bind, StateT.bind, OptionT.mk, hg]
  rfl

theorem map_eq {f : α → β} : f <$> g = g >>= fun a => pure (f a) := rfl

theorem optional_eq : optional g = ((g >>= fun a => pure (some a)) <|> pure none) := rfl

end Attempt

/-- One of these signs comes next. -/
def Stands (signs : List Punct) (p : Place) : Prop :=
  ∃ b ∈ signs, ∃ span rest, p.rest = ⟨.punct b, span⟩ :: rest

theorem Stands.mono {signs others : List Punct} {p : Place} (h : Stands signs p)
    (hsub : signs ⊆ others) : Stands others p := by
  obtain ⟨b, hb, hnext⟩ := h
  exact ⟨b, hsub hb, hnext⟩

theorem not_stands_nil {p : Place} : ¬ Stands [] p := by
  rintro ⟨b, hb, -⟩
  cases hb

/-- Before one of the signs nothing is taken, and nothing settled is lost. What succeeds there all
the same stands before one of `others`. -/
def Passes {α : Type} (signs others : List Punct) (g : Attempt α) : Prop :=
  ∀ p k, Stands signs p → k.Settled p.rest.length →
    g p k = (none, k) ∨ Stands others p ∧ ∃ a, g p k = (some (a, p), k)

/-- Whatever is kept, nothing is read here, and this is what was looked for. -/
def Misses {α : Type} (g : Attempt α) (p : Place) (looked : List Expected) : Prop :=
  ∀ k, g p k = (none, k.join p looked)

namespace Misses
variable {α β : Type} {g h : Attempt α} {f : α → Attempt β} {p : Place}
  {looked more : List Expected}

theorem token {f : Token → Option α} (hp : Avoids f p.rest) :
    Misses (Attempt.token looked f) p looked := by
  intro k
  obtain ⟨rest, lastStop⟩ := p
  cases rest with
  | nil => rfl
  | cons t rest =>
    have hf : f t.item = none := hp t rfl
    simp only [Attempt.token, hf]
    rfl

theorem bind (hg : Misses g p looked) : Misses (g >>= f) p looked :=
  fun k => Attempt.bind_of_none (hg k)

theorem map {f : α → β} (hg : Misses g p looked) : Misses (f <$> g) p looked := by
  rw [Attempt.map_eq]
  exact hg.bind

theorem orElse (hg : Misses g p looked) (hh : Misses h p more) :
    Misses (g <|> h) p (looked ++ more) := by
  intro k
  rw [Attempt.orElse_of_none (hg k), hh, Kept.join_join]

theorem check {role : WordRole} {f : α → Except Name β} (hg : Misses g p looked) :
    Misses (Attempt.check role g f) p looked :=
  fun k => Attempt.check_of_none (hg k)

theorem spanned {g : Attempt (Span → α)} (hg : Misses g p looked) :
    Misses (Attempt.spanned g) p looked :=
  fun k => Attempt.spanned_of_none (hg k)

theorem located (hg : Misses g p looked) : Misses (Attempt.located g) p looked := hg.map.spanned

end Misses

namespace Passes
variable {α β : Type} {g : Attempt α} {f : α → Attempt β} {signs others last : List Punct}

theorem nil : Passes [] others g := fun _ _ hstands _ => absurd hstands not_stands_nil

theorem pure {a : α} (hsub : signs ⊆ others) : Passes signs others (Pure.pure a) :=
  fun _ _ hstands _ => .inr ⟨hstands.mono hsub, a, rfl⟩

theorem token {looked : List Expected} {f : Token → Option α}
    (hf : ∀ b ∈ signs, f (.punct b) = none) : Passes signs others (Attempt.token looked f) := by
  rintro p k ⟨b, hb, span, rest, hp⟩ hsettled
  have hmiss : Misses (Attempt.token looked f) p looked := .token (hp ▸ avoids_cons (hf b hb))
  rw [hmiss, hsettled.join]
  exact .inl rfl

theorem bind (hg : Passes signs others g) (hf : ∀ a, Passes others last (f a)) :
    Passes signs last (g >>= f) := by
  intro p k hstands hsettled
  obtain hnone | ⟨hothers, a, hsome⟩ := hg p k hstands hsettled
  · exact .inl (Attempt.bind_of_none hnone)
  · rw [Attempt.bind_of_some hsome]
    exact hf a p k hothers hsettled

theorem orPure {a : α} (hg : Passes signs [] g) (hsub : signs ⊆ others) :
    Passes signs others (g <|> Pure.pure a) := by
  intro p k hstands hsettled
  obtain hnone | ⟨hnil, -⟩ := hg p k hstands hsettled
  · rw [Attempt.orElse_of_none hnone]
    exact .inr ⟨hstands.mono hsub, a, rfl⟩
  · exact absurd hnil not_stands_nil

end Passes

/-- The check of an attempt, for a parser. -/
def Parse.check {α β : Type} (role : WordRole) (f : α → Except Name β) (a : α) : Parse β :=
  match f a with
  | .ok b => pure b
  | .error word => throw (.unknownWord role word)

/-- What `g` does from `p`, with `k` kept before, where the parser has this outcome. Fewer than `n`
tokens are left after it. -/
inductive Follows {α : Type} (signs : List Punct) (n : Nat) (g : Attempt α) (p : Place) (k : Kept) :
    Except Refusal (α × Cursor) → Prop
  | read {a : α} {d : Cursor} {l : Kept} (run : g p k = (some (a, d.place), l)) (notes : l.Notes d)
      (fewer : d.rest.length < n) : Follows signs n g p k (.ok (a, d))
  | failed {r : Refusal} {l : Kept} (run : g p k = (none, l)) (alike : l.refusal.Alike r)
      (settled : l.Settled n) : Follows signs n g p k (.error r)
  | less {r : Refusal} {l : Kept} {a : α} {q : Place} (run : g p k = (some (a, q), l))
      (alike : l.refusal.Alike r) (settled : l.Settled n) (stands : Stands signs q)
      (there : l.Settled q.rest.length) : Follows signs n g p k (.error r)

theorem bind_spanned {α β : Type} {o : Except Refusal (α × Cursor)} {make : α → Span → β}
    {start : Nat} :
    ((o >>= fun r => .ok (make r.1, r.2)) >>= fun r => .ok (r.1 ⟨start, r.2.lastStop⟩, r.2)) =
      (o >>= fun r => .ok (make r.1 ⟨start, r.2.lastStop⟩, r.2) : Except Refusal (β × Cursor)) := by
  cases o <;> rfl

namespace Follows
variable {α β : Type} {signs others : List Punct} {n m : Nat} {g : Attempt α} {f : α → Attempt β}
  {p : Place} {k : Kept} {o : Except Refusal (α × Cursor)}

theorem mono (h : Follows signs m g p k o) (hsub : signs ⊆ others) (hle : m ≤ n) :
    Follows others n g p k o := by
  cases h with
  | read run notes fewer => exact .read run notes (Nat.lt_of_lt_of_le fewer hle)
  | failed run alike settled => exact .failed run alike (settled.mono hle)
  | less run alike settled stands there =>
    exact .less run alike (settled.mono hle) (stands.mono hsub) there

/-- The attempt in another form. -/
theorem congr {h : Attempt α} {q : Place} {l : Kept} (hg : Follows signs n g p k o)
    (heq : h q l = g p k) : Follows signs n h q l o := by
  cases hg with
  | read run => exact .read (heq.trans run) ‹_› ‹_›
  | failed run => exact .failed (heq.trans run) ‹_› ‹_›
  | less run => exact .less (heq.trans run) ‹_› ‹_› ‹_› ‹_›

theorem bind (next : α × Cursor → Except Refusal (β × Cursor)) (h : Follows signs n g p k o)
    (hpass : ∀ a, Passes signs others (f a))
    (hnext : ∀ a d l, l.Notes d → d.rest.length < n →
      Follows others n (f a) d.place l (next (a, d))) :
    Follows others n (g >>= f) p k (o >>= next) := by
  cases h with
  | read run notes fewer => exact (hnext _ _ _ notes fewer).congr (Attempt.bind_of_some run)
  | failed run alike settled => exact .failed (Attempt.bind_of_none run) alike settled
  | less run alike settled stands there =>
    rename_i r l a q
    -- What was read too little ends before a sign, and there `f` cannot go on either.
    have hrun : (g >>= f) p k = f a q l := Attempt.bind_of_some run
    obtain hnone | ⟨hothers, b, hsome⟩ := hpass a q l stands there
    · exact .failed (hrun.trans hnone) alike settled
    · exact .less (hrun.trans hsome) alike settled hothers there

theorem bind_pure (f : α → β) (h : Follows signs n g p k o) :
    Follows signs n (g >>= fun a => pure (f a)) p k (o >>= fun r => .ok (f r.1, r.2)) :=
  h.bind _ (fun _ => .pure (List.Subset.refl _)) fun _ _ _ hl hd => .read rfl hl hd

theorem orPure {a : α} (h : Follows [] n g p k o) (hn : n ≤ p.rest.length) (hp : Stands signs p) :
    Follows signs n (g <|> pure a) p k o := by
  cases h with
  | read run notes fewer => exact .read (Attempt.orElse_of_some run) notes fewer
  | failed run alike settled =>
    exact .less (Attempt.orElse_of_none run) alike settled hp (settled.mono hn)
  | less run alike settled stands => exact absurd stands not_stands_nil

theorem spanned {g : Attempt (Span → α)} {o : Except Refusal ((Span → α) × Cursor)}
    (h : Follows signs n g p k o) :
    Follows signs n (Attempt.spanned g) p k
      (o >>= fun r => .ok (r.1 ⟨p.start, r.2.lastStop⟩, r.2)) := by
  cases h with
  | read run notes fewer => exact .read (Attempt.spanned_of_some _ run) notes fewer
  | failed run alike settled => exact .failed (Attempt.spanned_of_none run) alike settled
  | less run alike settled stands there =>
    exact .less (Attempt.spanned_of_some _ run) alike settled stands there

theorem check {role : WordRole} {f : α → Except Name β} (h : Follows [] n g p k o)
    (hn : p.rest.length = n) :
    Follows signs n (Attempt.check role g f) p k (o >>= fun r => Parse.check role f r.1 r.2) := by
  cases h with
  | @read a d l run notes fewer =>
    change Follows _ _ _ _ _ (Parse.check role f a d)
    rw [Parse.check]
    cases hf : f a with
    | ok b => exact .read (Attempt.check_of_ok run hf) notes fewer
    | error word =>
      exact .failed (Attempt.check_of_error run hf) .unknownWord (.inr ⟨hn, role, word, rfl⟩)
  | failed run alike settled => exact .failed (Attempt.check_of_none run) alike settled
  | less run alike settled stands => exact absurd stands not_stands_nil

theorem located (h : Follows signs n g p k o) :
    Follows signs n (Attempt.located g) p k
      (o >>= fun r => .ok (⟨r.1, ⟨p.start, r.2.lastStop⟩⟩, r.2)) := by
  have hspanned := (h.bind_pure Located.mk).spanned
  rw [bind_spanned] at hspanned
  exact hspanned

theorem skip {h : Attempt α} {looked : List Expected} (hh : Misses h p looked)
    (hg : Follows signs n g p (k.join p looked) o) : Follows signs n (h <|> g) p k o :=
  hg.congr (Attempt.orElse_of_none (hh k))

/-- Alternatives that cannot begin here change nothing. -/
theorem orElse {h : Attempt α} {looked : List Expected} (hg : Follows signs n g p k o)
    (hn : n ≤ p.rest.length) (hh : Misses h p looked) : Follows signs n (g <|> h) p k o := by
  cases hg with
  | read run notes fewer => exact .read (Attempt.orElse_of_some run) notes fewer
  | failed run alike settled =>
    -- The failure of `g` is further on than the place where `h` gives up.
    refine .failed ?_ alike settled
    rw [Attempt.orElse_of_none run, hh, (settled.mono hn).join]
  | less run alike settled stands there =>
    exact .less (Attempt.orElse_of_some run) alike settled stands there

end Follows

/-- The attempt does what the parser does, at cursors with fewer than `n` tokens left. -/
def Tracks {α : Type} (signs : List Punct) (n : Nat) (g : Attempt α) (parser : Parse α) : Prop :=
  ∀ c k, c.rest.length < n → k.Notes c →
    Follows signs (c.rest.length + 1) g c.place k (parser c)

/-- Both begin with a token that `first` knows, and otherwise look for the same ones in vain. -/
structure Opens {α : Type} (signs : List Punct) (n : Nat) (first : Token → Bool)
    (looked : List Expected) (g : Attempt α) (parser : Parse α) : Prop where
  refuses : ∀ c : Cursor, c.rest.length < n → (∀ t ∈ c.rest.head?, first t.item = false) →
    parser c = .error (.unexpected c.rest.head? c.lastStop (c.tried ++ looked)) ∧
      Misses g c.place looked
  takes : ∀ (c : Cursor) (k : Kept) (t : Located Token) (rest : Tokens), c.rest = t :: rest →
    first t.item = true → c.rest.length < n → c.rest.length ≤ k.left →
      (∀ tried, parser ⟨c.rest, c.lastStop, tried⟩ = parser c) ∧
      Follows signs c.rest.length g c.place k (parser c)

namespace Tracks
variable {α β : Type} {signs others : List Punct} {n : Nat} {g : Attempt α} {f : α → Attempt β}
  {parser : Parse α} {next : α → Parse β}

theorem pure {a : α} : Tracks signs n (Pure.pure a) (Pure.pure a) :=
  fun _ _ _ hk => .read rfl hk (Nat.lt_succ_self _)

theorem mono {m : Nat} (h : Tracks signs m g parser) (hsub : signs ⊆ others) (hle : n ≤ m) :
    Tracks others n g parser :=
  fun c k hc hk => (h c k (Nat.lt_of_lt_of_le hc hle) hk).mono hsub (Nat.le_refl _)

theorem bind (h : Tracks signs n g parser) (hpass : ∀ a, Passes signs others (f a))
    (hnext : ∀ a, Tracks others n (f a) (next a)) :
    Tracks others n (g >>= f) (parser >>= next) := by
  intro c k hc hk
  refine (h c k hc hk).bind (fun r => next r.1 r.2) hpass fun a d l hl hd => ?_
  exact (hnext a d l (by omega) hl).mono (List.Subset.refl _) (by omega)

theorem bind_pure {f : α → β} (h : Tracks signs n g parser) :
    Tracks signs n (g >>= fun a => Pure.pure (f a)) (parser >>= fun a => Pure.pure (f a)) :=
  h.bind (fun _ => .pure (List.Subset.refl _)) fun _ => .pure

theorem map {f : α → β} (h : Tracks signs n g parser) : Tracks signs n (f <$> g) (f <$> parser) :=
  h.bind_pure

end Tracks

namespace Opens
variable {α β : Type} {signs others : List Punct} {n : Nat} {first : Token → Bool}
  {looked : List Expected} {g : Attempt α} {f : α → Attempt β} {parser : Parse α}
  {next : α → Parse β}

theorem tracks (h : Opens signs n first looked g parser) : Tracks signs n g parser := by
  intro c k hc hk
  by_cases hfirst : ∀ t ∈ c.rest.head?, first t.item = false
  · obtain ⟨hparser, hmiss⟩ := h.refuses c hc hfirst
    obtain ⟨hleft, halike⟩ := hk.join looked
    rw [hparser]
    exact .failed (hmiss k) halike (.inl (hleft ▸ Nat.lt_succ_self _))
  · obtain ⟨rest, lastStop, tried⟩ := c
    cases rest with
    | nil => simp at hfirst
    | cons t rest =>
      have ht : first t.item = true := by simpa using hfirst
      exact (h.takes _ k t rest rfl ht hc hk.le).2.mono (List.Subset.refl _) (Nat.le_succ _)

theorem bind {m : Nat} (h : Opens signs n first looked g parser) (hm : n ≤ m + 1)
    (hpass : ∀ a, Passes signs others (f a)) (hnext : ∀ a, Tracks others m (f a) (next a)) :
    Opens others n first looked (g >>= f) (parser >>= next) where
  refuses c hc hfirst := by
    obtain ⟨hparser, hmiss⟩ := h.refuses c hc hfirst
    exact ⟨Parse.bind_of_error hparser, hmiss.bind⟩
  takes c k t rest hrest ht hc hk := by
    obtain ⟨htried, hfollows⟩ := h.takes c k t rest hrest ht hc hk
    refine ⟨fun tried => ?_, ?_⟩
    · change parser ⟨_, _, tried⟩ >>= _ = parser c >>= _
      rw [htried]
    · refine hfollows.bind (fun r => next r.1 r.2) hpass fun a d l hl hd => ?_
      exact (hnext a d l (by omega) hl).mono (List.Subset.refl _) (by omega)

theorem token {f : Token → Option α} :
    Opens signs n (fun t => (f t).isSome) looked (Attempt.token looked f)
      (Parse.orRefuse (Parse.take? looked f)) where
  refuses c hc hfirst := by
    have havoids : Avoids f c.rest := fun t ht => by simpa using hfirst t ht
    exact ⟨Parse.bind_of_ok (Parse.take?_none havoids), .token havoids⟩
  takes c k t rest hrest ht hc hk := by
    obtain ⟨a, ha⟩ := Option.isSome_iff_exists.1 ht
    obtain ⟨_, lastStop, tried⟩ := c
    obtain rfl := hrest
    have htake : ∀ tried, Parse.orRefuse (Parse.take? looked f) ⟨t :: rest, lastStop, tried⟩ =
        .ok (⟨a, t.span⟩, ⟨rest, t.span.stop, []⟩) :=
      fun tried => Parse.bind_of_ok (Parse.take?_some ha)
    refine ⟨fun tried => by rw [htake, htake], ?_⟩
    rw [htake]
    exact .read (Attempt.token_of_some rfl ha) (Kept.notes_of_lt (Nat.lt_of_succ_le hk))
      (Nat.lt_succ_self _)

theorem check {role : WordRole} {f : α → Except Name β} (h : Opens [] n first looked g parser) :
    Opens signs n first looked (Attempt.check role g f) (parser >>= Parse.check role f) where
  refuses c hc hfirst := by
    obtain ⟨hparser, hmiss⟩ := h.refuses c hc hfirst
    exact ⟨Parse.bind_of_error hparser, hmiss.check⟩
  takes c k t rest hrest ht hc hk := by
    obtain ⟨htried, hfollows⟩ := h.takes c k t rest hrest ht hc hk
    refine ⟨fun tried => ?_, hfollows.check rfl⟩
    change parser ⟨_, _, tried⟩ >>= _ = parser c >>= _
    rw [htried]

/-- Something that may be left out, after a sign that nothing else begins with. -/
theorem orPure {b : Punct} {a : α}
    (h : Opens [] n (fun t => (asPunct b t).isSome) [.punct b] g
      (Parse.punct b >>= fun _ => parser)) :
    Tracks [b] n (g <|> Pure.pure a)
      (Parse.punct? b >>= fun o => if o.isSome then parser else Pure.pure a) := by
  intro c k hc hk
  obtain hb | ⟨span, rest, hb⟩ := avoids_or_punct b c.rest
  · have hfirst : ∀ t ∈ c.rest.head?, (asPunct b t.item).isSome = false :=
      fun t ht => by rw [hb t ht]; rfl
    have hparser : (Parse.punct? b >>= fun o => if o.isSome then parser else Pure.pure a) c =
        .ok (a, ⟨c.rest, c.lastStop, c.tried ++ [.punct b]⟩) :=
      Parse.bind_of_ok (Parse.take?_none hb)
    rw [hparser]
    exact .read (Attempt.orElse_of_none ((h.refuses c hc hfirst).2 k)) (hk.joined _)
      (Nat.lt_succ_self _)
  · have hself : (asPunct b (.punct b)).isSome = true := by rw [asPunct_self]; rfl
    have hfollows := (h.takes c k _ rest hb hself hc hk.le).2
    have hparser : (Parse.punct? b >>= fun o => if o.isSome then parser else Pure.pure a) c =
        (Parse.punct b >>= fun _ => parser) c := by
      obtain ⟨_, lastStop, tried⟩ := c
      obtain rfl := hb
      rw [Parse.bind_of_ok Parse.punct?_next, Parse.bind_of_ok Parse.punct_next]
      rfl
    rw [hparser]
    exact (hfollows.orPure (Nat.le_refl _) ⟨b, List.mem_singleton_self b, span, rest, hb⟩).mono
      (List.Subset.refl _) (Nat.le_succ _)

end Opens
end BlockTemplate.Script
