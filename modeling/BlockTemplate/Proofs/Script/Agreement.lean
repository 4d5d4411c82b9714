import BlockTemplate.Proofs.Script.Expressions

/-! Ordered choice and one token of lookahead agree on every list of tokens. -/
namespace BlockTemplate.Script

section Parts
variable {α : Type} {signs others : List Punct} {n size fuel : Nat}

theorem name_opens : Opens signs n (fun t => (asName t).isSome) [] Attempt.name Parse.name where
  refuses c hc hfirst := by
    have hname : Avoids asName c.rest := fun t ht => by simpa using hfirst t ht
    have hnone : ∀ t : Token, asName t = none → asIdent t = none ∧ asText t = none := by
      intro t ht
      cases t with
      | ident | text => cases ht
      | keyword | punct | number => exact ⟨rfl, rfl⟩
    refine ⟨Parse.bind_of_ok (Parse.take?_none hname), .orElse (.token ?_) (.token ?_)⟩
    · exact fun t ht => (hnone _ (hname t ht)).1
    · exact fun t ht => (hnone _ (hname t ht)).2
  takes c k t rest hrest ht hc hk := by
    obtain ⟨_, lastStop, tried⟩ := c
    obtain rfl := hrest
    obtain ⟨item, span⟩ := t
    cases item with
    | ident s => exact ⟨fun _ => rfl, .read rfl (Kept.notes_of_lt hk) (Nat.lt_succ_self _)⟩
    | text s =>
      have hle : rest.length < (k.join ⟨⟨.text s, span⟩ :: rest, lastStop⟩ []).left :=
        Kept.le_left_join (p := ⟨⟨.text s, span⟩ :: rest, lastStop⟩) hk
      exact ⟨fun _ => rfl, .read rfl (Kept.notes_of_lt hle) (Nat.lt_succ_self _)⟩
    | keyword | punct | number => cases ht

theorem optional_tracks {g : Attempt (Located α)} {f : Token → Option α} {looked : List Expected}
    (h : Opens [] n (fun t => (f t).isSome) looked g (Parse.orRefuse (Parse.take? looked f))) :
    Tracks [] n (optional g) (Parse.take? looked f) := by
  intro c k hc hk
  rw [Attempt.optional_eq]
  obtain hf | ⟨t, rest, a, hrest, ha⟩ := avoids_or_taken f c.rest
  · have htake : Parse.take? looked f c = .ok (none, ⟨c.rest, c.lastStop, c.tried ++ looked⟩) :=
      Parse.take?_none hf
    have hmiss := (h.refuses c hc fun t ht => by rw [hf t ht]; rfl).2
    rw [htake]
    exact .read (Attempt.orElse_of_none (hmiss.bind k)) (hk.joined _) (Nat.lt_succ_self _)
  · have hread := (h.takes c k t rest hrest (by rw [ha]; rfl) hc hk.le).2
    obtain ⟨_, lastStop, tried⟩ := c
    obtain rfl := hrest
    rw [Parse.orRefuse, Parse.bind_of_ok (Parse.take?_some ha)] at hread
    rw [Parse.take?_some ha]
    cases hread with
    | read run notes fewer =>
      exact .read (Attempt.orElse_of_some (Attempt.bind_of_some run)) notes
        (Nat.lt_succ_of_lt fewer)

theorem word_opens {role : WordRole} {f : String → Option α} :
    Opens signs n (fun t => (asIdent t).isSome) [] (Attempt.word role f) (Parse.word role f) := by
  have hcheck : Opens signs n _ [] (Attempt.word role f) _ := Opens.token.check
  refine Eq.mp (congrArg _ ?_) hcheck
  refine congrArg (Parse.ident >>= ·) (funext fun w => ?_)
  rw [Parse.check]
  cases f w.item <;> rfl

/-- Something that may follow a sign. -/
theorem after_tracks {b : Punct} {g : Attempt α} {parser : Parse α} (h : Tracks [] n g parser) :
    Tracks [b] n (optional (Attempt.punct b >>= fun _ => g))
      (Parse.punct? b >>= fun o => if o.isSome then some <$> parser else pure none) := by
  have hopens : Opens [] n (fun t => (asPunct b t).isSome) [.punct b]
      ((Attempt.punct b >>= fun _ => g) >>= fun a => pure (some a))
      ((Parse.punct b >>= fun _ => parser) >>= fun a => pure (some a)) :=
    (Opens.token.bind (Nat.le_succ n) (fun _ => .nil) fun _ => h).bind (Nat.le_succ n)
      (fun _ => .nil) fun _ => .pure
  have hparser : ((Parse.punct b >>= fun _ => parser) >>= fun a => pure (some a)) =
      Parse.punct b >>= fun _ => some <$> parser := bind_assoc _ _ _
  rw [hparser] at hopens
  exact hopens.orPure

theorem target_tracks : Tracks [.atSign] n Attempt.target Parse.target :=
  after_tracks Opens.token.tracks

theorem negated_tracks : Tracks [] n Attempt.negated Parse.negated :=
  (optional_tracks Opens.token).bind_pure

theorem tag_opens : Opens [] n (fun t => (asText t).isSome) [] Attempt.tag Parse.tag := by
  refine Opens.token.bind (Nat.le_succ n) (fun _ => .nil) fun tag => ?_
  refine (Opens.token.bind (Nat.le_succ n) (fun _ => .nil) fun _ => ?_).tracks
  exact Opens.token.tracks.bind_pure

theorem args_tracks (hsize : n ≤ size) (hfuel : n ≤ fuel) :
    Tracks [.parenOpen] n (Attempt.args size) (Parse.args fuel) :=
  (group_opens (expr_agrees n size fuel hsize hfuel).1 rfl (by decide) (by decide) hsize
    hfuel).orPure.mono (List.Subset.refl _) (Nat.le_succ n)

theorem tags_tracks (hsize : n ≤ size) (hfuel : n ≤ fuel) :
    Tracks [.braceOpen] n (Attempt.tags size) (Parse.tags fuel) :=
  (group_opens tag_opens rfl (by decide) (by decide) hsize hfuel).orPure.mono (List.Subset.refl _)
    (Nat.le_succ n)

theorem group_passes {opening closing : Punct} {item : Attempt α} (h : opening ∉ signs)
    (hsub : signs ⊆ others) :
    Passes signs others (Attempt.group opening closing item size <|> pure []) := by
  refine .orPure (.bind (.token fun b hb => if_neg ?_) fun _ => .nil) hsub
  rintro rfl
  exact h hb

variable {make : List Expr → TagList → α}

/-- Arguments and tags at the end of a line. -/
theorem lineEnd_tracks (hsize : n ≤ size) (hfuel : n ≤ fuel) :
    Tracks [.parenOpen, .braceOpen] n
      (Attempt.args size >>= fun args => Attempt.tags size >>= fun tags => pure (make args tags))
      (Parse.args fuel >>= fun args => Parse.tags fuel >>= fun tags => pure (make args tags)) := by
  refine (args_tracks hsize hfuel).bind (fun args => ?_) fun args => ?_
  · exact .bind (group_passes (by decide) (List.Subset.refl _)) fun _ => .pure (by simp)
  · exact (tags_tracks hsize hfuel).bind_pure.mono (by simp) (Nat.le_refl n)

theorem lineEnd_passes (h : .atSign ∈ others) :
    Passes [.atSign] others
      (Attempt.args size >>= fun args => Attempt.tags size >>= fun tags =>
        pure (make args tags)) := by
  have hsub : [.atSign] ⊆ others := List.cons_subset.2 ⟨h, List.nil_subset _⟩
  exact .bind (group_passes (by decide) (List.Subset.refl _)) fun _ =>
    .bind (group_passes (by decide) (List.Subset.refl _)) fun _ => .pure hsub

end Parts

/-- The signs before which a line may end too early. -/
def lineSigns : List Punct := [.atSign, .parenOpen, .braceOpen, .colon]

theorem declaration_tracks {n : Nat} :
    Tracks lineSigns n Attempt.declaration Parse.declaration := by
  have hsub : [.colon] ⊆ lineSigns := by decide
  refine word_opens.tracks.bind (fun _ => .nil) fun scope => ?_
  refine name_opens.tracks.bind (fun _ => .nil) fun name => ?_
  exact (after_tracks word_opens.tracks).bind (fun _ => .pure hsub) fun _ => .pure

section Lines
variable {n size fuel : Nat} (hsize : n ≤ size) (hfuel : n ≤ fuel)
include hsize hfuel

theorem action_tracks : Tracks lineSigns n (Attempt.action size) (Parse.action fuel) := by
  refine word_opens.tracks.bind (fun _ => .nil) fun category => ?_
  refine name_opens.tracks.bind (fun _ => .nil) fun action => ?_
  refine target_tracks.bind (fun target => lineEnd_passes (by decide)) fun target => ?_
  exact (lineEnd_tracks hsize hfuel).mono (by decide) (Nat.le_refl n)

theorem condition_tracks : Tracks lineSigns n (Attempt.condition size) (Parse.condition fuel) := by
  refine word_opens.tracks.bind (fun _ => .nil) fun category => ?_
  refine negated_tracks.bind (fun _ => .nil) fun negated => ?_
  refine name_opens.tracks.bind (fun _ => .nil) fun action => ?_
  refine target_tracks.bind (fun target => lineEnd_passes (by decide)) fun target => ?_
  exact (lineEnd_tracks hsize hfuel).mono (by decide) (Nat.le_refl n)

theorem loop_tracks : Tracks lineSigns n (Attempt.loop size) (Parse.loop fuel) := by
  refine name_opens.tracks.bind (fun _ => .nil) fun action => ?_
  refine (optional_tracks name_opens).bind (fun _ => .nil) fun subAction => ?_
  refine negated_tracks.bind (fun _ => .nil) fun negated => ?_
  exact (lineEnd_tracks hsize hfuel).mono (by decide) (Nat.le_refl n)

theorem definition_tracks :
    Tracks lineSigns n (Attempt.definition size) (Parse.definition fuel) := by
  refine Opens.token.tracks.bind (fun _ => .nil) fun name => ?_
  exact (lineEnd_tracks hsize hfuel).mono (by decide) (Nat.le_refl n)

end Lines

/-- An attempt that begins with one of these words, and then does what the parser for it does. -/
structure Chooses {α : Type} (signs : List Punct) (n : Nat) (words : List Keyword) (g : Attempt α)
    (body : Keyword → Parse α) : Prop where
  misses : ∀ p : Place, (∀ w ∈ words, Avoids (asKeyword w) p.rest) →
    Misses g p (words.map .keyword)
  takes : ∀ w ∈ words, ∀ (span : Span) (rest : Tokens) (lastStop : Nat) (k : Kept),
    rest.length < n → rest.length < k.left →
      Follows signs (rest.length + 1) g ⟨⟨.keyword w, span⟩ :: rest, lastStop⟩ k
        (body w ⟨rest, span.stop, []⟩)

namespace Chooses
variable {α β : Type} {signs others : List Punct} {n : Nat} {words more : List Keyword}
  {g h : Attempt α} {f : α → Attempt β} {body : Keyword → Parse α} {next : α → Parse β}

theorem avoids_other {v w : Keyword} {span : Span} {rest : Tokens} (h : v ≠ w) :
    Avoids (asKeyword w) (⟨.keyword v, span⟩ :: rest) :=
  avoids_cons (if_neg h)

theorem clause {w : Keyword} (h : Tracks signs n g (body w)) :
    Chooses signs n [w] (Attempt.clause w g) body where
  misses p hp := .bind (.token (hp w (List.mem_singleton_self w)))
  takes v hv span rest lastStop k hn hk := by
    obtain rfl := List.mem_singleton.1 hv
    exact (h ⟨rest, span.stop, []⟩ k hn (Kept.notes_of_lt hk)).congr
      (Attempt.bind_of_some Attempt.keyword_next)

theorem bind (h : Chooses signs n words g body) (hpass : ∀ a, Passes signs others (f a))
    (hnext : ∀ a, Tracks others n (f a) (next a)) :
    Chooses others n words (g >>= f) fun w => body w >>= next where
  misses p hp := (h.misses p hp).bind
  takes w hw span rest lastStop k hn hk := by
    refine (h.takes w hw span rest lastStop k hn hk).bind (fun r => next r.1 r.2) hpass
      fun a d l hl hd => ?_
    exact (hnext a d l (by omega) hl).mono (List.Subset.refl _) (by omega)

theorem orElse (hg : Chooses signs n words g body) (hh : Chooses signs n more h body)
    (hdisjoint : ∀ w ∈ words, w ∉ more) : Chooses signs n (words ++ more) (g <|> h) body where
  misses p hp := by
    rw [List.map_append]
    exact .orElse (hg.misses p fun w hw => hp w (List.mem_append_left _ hw))
      (hh.misses p fun w hw => hp w (List.mem_append_right _ hw))
  takes w hw span rest lastStop k hn hk := by
    obtain hw | hw := List.mem_append.1 hw
    · refine (hg.takes w hw span rest lastStop k hn hk).orElse (Nat.le_refl _) (hh.misses _ ?_)
      rintro v hv
      refine avoids_other ?_
      rintro rfl
      exact hdisjoint _ hw hv
    · refine .skip (hg.misses _ fun v hv => avoids_other ?_)
        (hh.takes w hw span rest lastStop _ hn
          (Kept.le_left_join (p := ⟨⟨.keyword w, span⟩ :: rest, lastStop⟩) hk))
      rintro rfl
      exact hdisjoint _ hv hw

theorem congr (h : Chooses signs n words g body) (other : Keyword → Parse α)
    (heq : ∀ w ∈ words, other w = body w) : Chooses signs n words g other where
  misses := h.misses
  takes w hw := heq w hw ▸ h.takes w hw

theorem mono (h : Chooses signs n words g body) (hsub : signs ⊆ others) :
    Chooses others n words g body where
  misses := h.misses
  takes w hw span rest lastStop k hn hk :=
    (h.takes w hw span rest lastStop k hn hk).mono hsub (Nat.le_refl _)

end Chooses

section Statements
variable {n size fuel : Nat}

theorem event_eq :
    Parse.event = (Parse.name >>= fun first => Parse.name? >>= fun second => pure (first, second))
      >>= Parse.check .eventCategory Attempt.eventOf := by
  simp only [Parse.event, bind_assoc, pure_bind]
  refine congrArg _ (funext fun first => congrArg _ (funext fun second => ?_))
  cases second with
  | none => rfl
  | some action =>
    rw [Parse.check, Attempt.eventOf]
    cases eventCategory? first.item <;> rfl

/-- An unknown category is found at the end of the statement, and counts where it began. -/
theorem event_chooses : Chooses [] n [.event] Attempt.event (Parse.statement fuel) where
  misses p hp := .check (.bind (.token (hp .event (List.mem_singleton_self _))))
  takes w hw span rest lastStop k hn hk := by
    obtain rfl := List.mem_singleton.1 hw
    have hnames : Tracks [] n
        (Attempt.name >>= fun first => optional Attempt.name >>= fun second => pure (first, second))
        (Parse.name >>= fun first => Parse.name? >>= fun second => pure (first, second)) :=
      name_opens.tracks.bind (fun _ => .nil) fun _ => (optional_tracks name_opens).bind_pure
    have hline : Follows [] (rest.length + 1)
        (Attempt.keyword .event >>= fun _ => Attempt.name >>= fun first =>
          optional Attempt.name >>= fun second => pure (first, second))
        ⟨⟨.keyword .event, span⟩ :: rest, lastStop⟩ k _ :=
      (hnames ⟨rest, span.stop, []⟩ k hn (Kept.notes_of_lt hk)).congr
        (Attempt.bind_of_some Attempt.keyword_next)
    rw [Parse.statement, event_eq]
    exact hline.check rfl

/-- The words that begin a statement, in the order in which they are looked for. -/
def statementWords : List Keyword :=
  [.event, .declare, .action, .call, .start, .ifThen, .ifElse, .otherwise, .close, .loop,
   .function, .process]

theorem statement_chooses (hsize : n ≤ size) (hfuel : n ≤ fuel) :
    Chooses lineSigns n statementWords (Attempt.statement size) (Parse.statement fuel) := by
  have hdefinition := definition_tracks hsize hfuel
  have hmake : Chooses [] n [.ifThen, .ifElse]
      (Attempt.clause .ifThen (pure Statement.ifThen) <|>
        Attempt.clause .ifElse (pure Statement.ifElse))
      fun w => pure (if w = .ifElse then Statement.ifElse else Statement.ifThen) :=
    .orElse (.clause (w := .ifThen) (by exact .pure)) (.clause (w := .ifElse) (by exact .pure))
      (by decide)
  have hcondition : Chooses lineSigns n [.ifThen, .ifElse] _ (Parse.statement fuel) :=
    (hmake.bind (fun _ => .nil) fun make => (condition_tracks hsize hfuel).map (f := make)).congr _
      (by simp [Parse.statement])
  exact .orElse (event_chooses.mono (List.nil_subset _))
    (.orElse (.clause (w := .declare) declaration_tracks)
    (.orElse (.clause (w := .action) (action_tracks hsize hfuel).map)
    (.orElse (.clause (w := .call) Opens.token.tracks.map)
    (.orElse (.clause (w := .start) Opens.token.tracks.map)
    (.orElse hcondition
    (.orElse (.clause (w := .otherwise) (by exact .pure))
    (.orElse (.clause (w := .close) (by exact .pure))
    (.orElse (.clause (w := .loop) (loop_tracks hsize hfuel).map)
    (.orElse (.clause (w := .function) hdefinition.map)
    (.clause (w := .process) hdefinition.map) (by decide)) (by decide)) (by decide)) (by decide))
      (by decide)) (by decide)) (by decide)) (by decide)) (by decide)) (by decide)

end Statements

section Scripts
variable {α : Type} {g : Attempt α} {p q : Place} {k l : Kept} {a : α} {n size fuel : Nat}

/-- The same result, or the same refusal. -/
def Concludes (run : Option (α × Place) × Kept) : Except Refusal (α × Cursor) → Prop
  | .ok (a, _) => ∃ q l, run = (some (a, q), l)
  | .error r => ∃ l, run = (none, l) ∧ l.refusal.Alike r

theorem Concludes.map {β : Type} (f : α → β) {o : Except Refusal (α × Cursor)}
    (h : Concludes (g p k) o) :
    Concludes ((g >>= fun a => pure (f a)) p k) (o >>= fun r => .ok (f r.1, r.2)) := by
  cases o with
  | ok r =>
    obtain ⟨q, l, hrun⟩ := h
    exact ⟨q, l, Attempt.bind_of_some hrun⟩
  | error r =>
    obtain ⟨l, hrun, halike⟩ := h
    exact ⟨l, Attempt.bind_of_none hrun, halike⟩

theorem untilEnd_of_none {rounds : Nat} (hg : g p k = (none, l)) :
    Attempt.untilEnd g (rounds + 1) p k = (Attempt.endOfInput >>= fun _ => pure []) p l :=
  Attempt.bind_of_some (Attempt.orElse_of_none (Attempt.bind_of_none hg))

theorem repeated_succeeds (g : Attempt α) (rounds : Nat) (p : Place) (k : Kept) :
    ∃ as q l, Attempt.repeated g rounds p k = (some (as, q), l) := by
  cases rounds with
  | zero => exact ⟨[], p, k, rfl⟩
  | succ rounds => exact orPure_succeeds _ [] p k

theorem untilEnd_of_some {rounds : Nat} (hg : g p k = (some (a, q), l)) :
    Attempt.untilEnd g (rounds + 1) p k =
      (Attempt.untilEnd g rounds >>= fun as => pure (a :: as)) q l := by
  obtain ⟨as, r, m, hothers⟩ := repeated_succeeds g rounds q l
  refine finish_cons (Attempt.orElse_of_some ?_) hothers
  exact (Attempt.bind_of_some hg).trans (Attempt.bind_of_some hothers)

theorem endOfInput_misses {t : Located Token} {rest : Tokens} (hp : p.rest = t :: rest) :
    Misses Attempt.endOfInput p [.endOfInput] := by
  intro k
  rw [Attempt.endOfInput, hp]
  rfl

/-- Nothing more can be read, and a failure kept further on stays. -/
theorem untilEnd_stops {rounds : Nat} {t : Located Token} {rest : Tokens} {looked : List Expected}
    (hp : p.rest = t :: rest) (hg : Misses g p looked) (hk : k.Settled p.rest.length) :
    Attempt.untilEnd g (rounds + 1) p k = (none, k) := by
  rw [untilEnd_of_none (hg k), hk.join, Attempt.bind_of_none (endOfInput_misses hp k), hk.join]

theorem mem_statementKeywords (x : Expected) :
    x ∈ statementWords.map .keyword ↔ x ∈ Parse.statementKeywords := by
  have hperm : (statementWords.map Expected.keyword).Perm Parse.statementKeywords := by decide
  exact hperm.mem_iff

theorem avoids_of_asStatementKeyword {t : Located Token} {rest : Tokens} {w : Keyword}
    (ht : asStatementKeyword t.item = none) (hw : w ∈ statementWords) :
    Avoids (asKeyword w) (t :: rest) := by
  refine avoids_cons ?_
  cases hitem : t.item with
  | keyword v =>
    rw [hitem] at ht
    refine if_neg ?_
    rintro rfl
    have hstarts : ∀ w ∈ statementWords, w.startsStatement = true := by decide
    simp [asStatementKeyword, hstarts v hw] at ht
  | punct | ident | text | number => rfl

theorem statements_of_keyword {w : Keyword} {span : Span} {rest : Tokens} {lastStop steps : Nat}
    {tried : List Expected} (hw : w.startsStatement = true) :
    Parse.statements fuel (steps + 1) ⟨⟨.keyword w, span⟩ :: rest, lastStop, tried⟩ =
      (Parse.statement fuel w ⟨rest, span.stop, []⟩ >>= fun r =>
        Parse.statements fuel steps r.2 >>= fun others =>
          .ok (⟨r.1, ⟨span.start, r.2.lastStop⟩⟩ :: others.1, others.2)) := by
  have hfirst : Parse.orRefuse (Parse.take? (Parse.statementKeywords ++ [.endOfInput])
      asStatementKeyword) ⟨⟨.keyword w, span⟩ :: rest, lastStop, tried⟩ =
      .ok (⟨w, span⟩, ⟨rest, span.stop, []⟩) := Parse.bind_of_ok (Parse.take?_some (if_pos hw))
  exact (Parse.bind_of_ok (Parse.atEnd_eq _)).trans (Parse.bind_of_ok hfirst)

theorem statements_refuses {t : Located Token} {rest : Tokens} {lastStop steps : Nat}
    {tried : List Expected} (ht : asStatementKeyword t.item = none) :
    Parse.statements fuel (steps + 1) ⟨t :: rest, lastStop, tried⟩ =
      .error (.unexpected (some t) lastStop
        (tried ++ (Parse.statementKeywords ++ [.endOfInput]))) := by
  refine (Parse.bind_of_ok (Parse.atEnd_eq _)).trans ?_
  exact Parse.bind_of_error (Parse.bind_of_ok (Parse.take?_none (avoids_cons ht)))

/-- A refusal of one statement is the refusal of the script. No statement begins where a line has
ended too early. -/
theorem untilEnd_refuses {signs : List Punct} {rounds : Nat} {t : Located Token} {rest : Tokens}
    {r : Refusal} (looked : List Expected) (hp : p.rest = t :: rest)
    (hg : Follows signs p.rest.length g p k (.error r))
    (hstands : ∀ q, Stands signs q → Misses g q looked) :
    Concludes (Attempt.untilEnd g (rounds + 2) p k) (.error r) := by
  cases hg with
  | @failed _ l run alike settled =>
    refine ⟨l, ?_, alike⟩
    rw [untilEnd_of_none run, Attempt.bind_of_none (endOfInput_misses hp l), settled.join]
  | @less _ l a q run alike settled stands there =>
    obtain ⟨b, hb, span, more, hq⟩ := stands
    refine ⟨l, ?_, alike⟩
    rw [untilEnd_of_some run, Attempt.bind_of_none]
    exact untilEnd_stops hq (hstands q ⟨b, hb, span, more, hq⟩) there

/-- Statement by statement, up to the end of input or the first refusal. -/
theorem mem_statementWords {w : Keyword} (hw : w.startsStatement = true) : w ∈ statementWords := by
  revert hw
  cases w <;> decide

/-- No statement begins with this token. -/
theorem conclude_of_other (hsize : n ≤ size) (hfuel : n ≤ fuel) {t : Located Token} {rest : Tokens}
    {lastStop rounds steps : Nat} {tried : List Expected} (ht : asStatementKeyword t.item = none)
    (hk : k.Notes ⟨t :: rest, lastStop, tried⟩) :
    Concludes (Attempt.untilEnd (Attempt.located (Attempt.statement size)) (rounds + 1)
      ⟨t :: rest, lastStop⟩ k) (Parse.statements fuel (steps + 1) ⟨t :: rest, lastStop, tried⟩) := by
  have hmiss : Misses (Attempt.located (Attempt.statement size)) ⟨t :: rest, lastStop⟩ _ :=
    ((statement_chooses hsize hfuel).misses _ fun _ hw =>
      avoids_of_asStatementKeyword ht hw).located
  obtain ⟨-, halike⟩ := hk.join (statementWords.map .keyword ++ [.endOfInput])
  rw [statements_refuses ht]
  refine ⟨_, ?_, halike.reorder fun x => ?_⟩
  · rw [untilEnd_of_none (hmiss k), Attempt.bind_of_none (endOfInput_misses rfl _),
      Kept.join_join]
  · simp only [List.mem_append, mem_statementKeywords]

theorem statements_conclude (hsize : n ≤ size) (hfuel : n ≤ fuel) (rounds steps : Nat) (c : Cursor)
    (k : Kept) (hn : c.rest.length < n) (hrounds : c.rest.length < rounds)
    (hsteps : c.rest.length < steps) (hk : k.Notes c) :
    Concludes (Attempt.untilEnd (Attempt.located (Attempt.statement size)) rounds c.place k)
      (Parse.statements fuel steps c) := by
  -- Every statement takes its keyword, so there are rounds enough for all of them.
  induction rounds generalizing steps c k with
  | zero => cases hrounds
  | succ rounds ih =>
  obtain _ | steps := steps
  · cases hsteps
  have hchooses := statement_chooses hsize hfuel
  obtain ⟨_ | ⟨⟨item, span⟩, rest⟩, lastStop, tried⟩ := c
  · have hmiss : Misses (Attempt.located (Attempt.statement size)) ⟨[], lastStop⟩ _ :=
      (hchooses.misses _ fun _ _ => avoids_nil).located
    exact ⟨⟨[], lastStop⟩, _, untilEnd_of_none (hmiss k)⟩
  cases hitem : asStatementKeyword item with
  | none => exact conclude_of_other hsize hfuel hitem hk
  | some w =>
    obtain ⟨hkeyword, hw⟩ := eq_keyword_of_asStatementKeyword (t := ⟨item, span⟩) hitem
    obtain rfl : item = .keyword w := congrArg Located.item hkeyword
    have hst := hchooses.takes w (mem_statementWords hw) span rest lastStop k
      (Nat.lt_of_succ_lt hn) (Nat.lt_of_succ_le hk.le)
    have hlocated := hst.located
    rw [statements_of_keyword hw]
    generalize Parse.statement fuel w ⟨rest, span.stop, []⟩ = o at hlocated ⊢
    cases o with
    | error r =>
      obtain _ | rounds := rounds
      · exact absurd (Nat.lt_of_succ_lt_succ hrounds) (Nat.not_lt_zero _)
      refine untilEnd_refuses (statementWords.map .keyword) rfl hlocated fun q hstands => ?_
      obtain ⟨b, _, bspan, more, hq⟩ := hstands
      exact (hchooses.misses q fun w _ => hq ▸ avoids_cons rfl).located
    | ok r =>
      cases hlocated with
      | read run notes fewer =>
        simp only [List.length_cons] at hn hrounds hsteps
        rw [untilEnd_of_some run]
        exact (ih steps _ _ (by omega) (by omega) (by omega) notes).map _

end Scripts

/-- Where the parsing of a list of tokens begins. -/
def startOf (length : Nat) (tokens : Tokens) : Cursor :=
  { rest := tokens, lastStop := if tokens.isEmpty then length else 0 }

/-- With one token of lookahead the same statements are read, and where there are none the same
token is refused, for the same reason. -/
theorem parseTokens_agrees (length : Nat) (tokens : Tokens) :
    match Parse.statements (tokens.length + 1) (tokens.length + 1) (startOf length tokens) with
    | .ok (script, _) => parseTokens length tokens = .ok script
    | .error r => ∃ kept : Refusal, kept.Alike r ∧
        parseTokens length tokens = .error (kept.toError length) := by
  have hlt : tokens.length < tokens.length + 1 := Nat.lt_succ_self _
  have hstart : (Kept.nothing (startOf length tokens).place).Notes (startOf length tokens) :=
    .inr ⟨rfl, .unexpected fun _ => Iff.rfl⟩
  have hconclude := statements_conclude (Nat.le_refl _) (Nat.le_refl _) (tokens.length + 1)
    (tokens.length + 1) _ _ hlt hlt hlt hstart
  revert hconclude
  cases Parse.statements (tokens.length + 1) (tokens.length + 1) (startOf length tokens) with
  | ok r =>
    rintro ⟨q, l, hrun⟩
    exact congrArg (outcomeOf length) hrun
  | error r =>
    rintro ⟨l, hrun, halike⟩
    exact ⟨l.refusal, halike, congrArg (outcomeOf length) hrun⟩

-- The unknown word is blamed, though the name after it was read as well.
example : parseTokens 11 [⟨.keyword .event, ⟨0, 5⟩⟩, ⟨.text "a", ⟨6, 9⟩⟩, ⟨.ident "b", ⟨10, 11⟩⟩] =
    .error (.unread (.unknownWord .eventCategory "a") ⟨6, 9⟩) := rfl

end BlockTemplate.Script
