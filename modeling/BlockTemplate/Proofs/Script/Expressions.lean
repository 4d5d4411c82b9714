import BlockTemplate.Proofs.Script.Attempts

/-! Lists of items and expressions are read alike by ordered choice and with one token of
lookahead. -/
namespace BlockTemplate.Script

theorem Refusal.Alike.reorder {r : Refusal} {found : Option (Located Token)} {lastStop : Nat}
    {tried others : List Expected} (h : r.Alike (.unexpected found lastStop tried))
    (hsame : ∀ x, x ∈ tried ↔ x ∈ others) : r.Alike (.unexpected found lastStop others) := by
  cases h with
  | unexpected same => exact .unexpected fun x => (same x).trans (hsame x)

section Items
variable {α : Type} {signs : List Punct} {n size : Nat} {first : Token → Bool}
  {looked : List Expected} {closing : Punct} {g : Attempt α} {parser : Parse α} {p q r : Place}
  {k l m : Kept} {a : α}

theorem separated_of_none (hg : g p k = (none, l)) :
    Attempt.separated g (size + 1) p k = (some ([], p), l) := by
  rw [Attempt.separated, Attempt.orElse_of_none (Attempt.bind_of_none hg)]
  rfl

theorem closed_of_none (hg : g p k = (none, l)) :
    Attempt.closed g closing (size + 1) p k =
      (Attempt.punct closing >>= fun _ => pure []) p l :=
  Attempt.bind_of_some (separated_of_none hg)

theorem closed_of_last (hg : g p k = (some (a, q), l))
    (hcomma : Attempt.punct .comma q l = (none, m)) :
    Attempt.closed g closing (size + 1) p k =
      (Attempt.punct closing >>= fun _ => pure [a]) q m := by
  refine Attempt.bind_of_some (Attempt.orElse_of_some ?_)
  rw [Attempt.bind_of_some hg, Attempt.bind_of_some (a := []) (q := q) (l := m)]
  · rfl
  · exact Attempt.orElse_of_none (Attempt.bind_of_none hcomma)

theorem orPure_succeeds (g : Attempt α) (a : α) (p : Place) (k : Kept) :
    ∃ b q l, (g <|> pure a) p k = (some (b, q), l) := by
  rcases hg : g p k with ⟨_ | ⟨b, q⟩, l⟩
  · exact ⟨a, p, l, Attempt.orElse_of_none hg⟩
  · exact ⟨b, q, l, Attempt.orElse_of_some hg⟩

theorem separated_succeeds (g : Attempt α) (size : Nat) (p : Place) (k : Kept) :
    ∃ as q l, Attempt.separated g size p k = (some (as, q), l) := by
  cases size with
  | zero => exact ⟨[], p, k, rfl⟩
  | succ size => exact orPure_succeeds _ [] p k

/-- One more item before a loop that always succeeds, and something after the loop. -/
theorem finish_cons {β : Type} {whole others : Attempt (List α)} {finish : Attempt β}
    {as : List α} (hwhole : whole p k = (some (a :: as, q), l))
    (hothers : others r m = (some (as, q), l)) :
    (whole >>= fun as => finish >>= fun _ => pure as) p k =
      ((others >>= fun as => finish >>= fun _ => pure as) >>= fun as => pure (a :: as)) r m := by
  have hrest : (others >>= fun as => finish >>= fun _ => pure as) r m =
      (finish >>= fun _ => pure as) q l := Attempt.bind_of_some hothers
  refine (Attempt.bind_of_some hwhole).trans ?_
  rcases hfinish : finish q l with ⟨_ | ⟨b, s⟩, o⟩
  · rw [Attempt.bind_of_none hfinish] at hrest ⊢
    rw [Attempt.bind_of_none hrest]
  · rw [Attempt.bind_of_some hfinish] at hrest ⊢
    rw [Attempt.bind_of_some hrest]

theorem closed_of_more {u : Located Unit} (hg : g p k = (some (a, q), l))
    (hcomma : Attempt.punct .comma q l = (some (u, r), m)) :
    Attempt.closed g closing (size + 1) p k =
      (Attempt.closed g closing size >>= fun as => pure (a :: as)) r m := by
  obtain ⟨as, s, o, hothers⟩ := separated_succeeds g size r m
  have hmore : (Attempt.punct .comma >>= fun _ => Attempt.separated g size) q l =
      (some (as, s), o) := (Attempt.bind_of_some hcomma).trans hothers
  refine finish_cons (Attempt.orElse_of_some ?_) hothers
  rw [Attempt.bind_of_some hg, Attempt.bind_of_some (Attempt.orElse_of_some hmore)]
  rfl

/-- A closing sign, and nothing more to do. -/
theorem close_tracks (closing : Punct) (as : List α) :
    Tracks [] n (Attempt.punct closing >>= fun _ => pure as)
      (Parse.punct closing >>= fun _ => pure as) :=
  (Opens.token.bind (Nat.le_succ n) (fun _ => .nil) fun _ => .pure).tracks

theorem close_misses {as : List α} (hp : Avoids (asPunct closing) p.rest)
    (hk : k.Settled p.rest.length) :
    (Attempt.punct closing >>= fun _ => pure as) p k = (none, k) := by
  have hmiss : Misses (Attempt.punct closing) p [.punct closing] := .token hp
  rw [Attempt.bind_of_none (hmiss k), hk.join]

theorem Stands.avoids {b : Punct} (h : Stands signs p) (hb : b ∉ signs) :
    Avoids (asPunct b) p.rest := by
  obtain ⟨d, hd, span, rest, hp⟩ := h
  rw [hp]
  refine avoids_cons (if_neg ?_)
  rintro rfl
  exact hb hd

/-- The items after the first, or the closing sign. -/
def Parse.itemsTail (parser : Parse α) (closing : Punct) (fuel : Nat) (a : α) : Parse (List α) :=
  Parse.punct? .comma >>= fun o =>
    if o.isSome then Parse.items parser closing fuel >>= fun as => pure (a :: as)
    else Parse.punct closing >>= fun _ => pure [a]

theorem items_of_avoids {c : Cursor} {fuel : Nat} (h : Avoids (asPunct closing) c.rest) :
    Parse.items parser closing (fuel + 1) c =
      (parser >>= Parse.itemsTail parser closing fuel)
        ⟨c.rest, c.lastStop, c.tried ++ [.punct closing]⟩ :=
  Parse.bind_of_ok (Parse.take?_none h)

/-- Nothing more can be read, and the closing sign is not there either. -/
theorem items_refused {c : Cursor} {fuel : Nat} (hc : Avoids (asPunct closing) c.rest)
    (hrefuses : ∀ tried, parser ⟨c.rest, c.lastStop, tried⟩ =
      .error (.unexpected c.rest.head? c.lastStop (tried ++ looked)))
    (hmiss : Misses g c.place looked) (hk : k.Notes c) :
    Follows [] (c.rest.length + 1) (Attempt.closed g closing (size + 1)) c.place k
      (Parse.items parser closing (fuel + 1) c) := by
  have hclosing : Misses (Attempt.punct closing) c.place [.punct closing] := .token hc
  obtain ⟨hleft, halike⟩ := hk.join (looked ++ [.punct closing])
  rw [items_of_avoids hc, Parse.bind_of_error (hrefuses _)]
  refine .failed ?_ (halike.reorder ?_) (.inl (hleft ▸ Nat.lt_succ_self _))
  · rw [closed_of_none (hmiss k), Attempt.bind_of_none (hclosing _), Kept.join_join]
  · simp [or_comm]

theorem items_closed {c : Cursor} {fuel : Nat} {span : Span} {rest : Tokens}
    (hc : c.rest = ⟨.punct closing, span⟩ :: rest) (hmiss : Misses g c.place looked)
    (hk : k.Notes c) :
    Follows [] (c.rest.length + 1) (Attempt.closed g closing (size + 1)) c.place k
      (Parse.items parser closing (fuel + 1) c) := by
  have hle : c.rest.length ≤ (k.join c.place looked).left :=
    Kept.le_left_join (p := c.place) hk.le
  obtain ⟨_, lastStop, tried⟩ := c
  obtain rfl := hc
  have hparse : Parse.items parser closing (fuel + 1)
      ⟨⟨.punct closing, span⟩ :: rest, lastStop, tried⟩ = .ok ([], ⟨rest, span.stop, []⟩) :=
    Parse.bind_of_ok Parse.punct?_next
  rw [hparse]
  refine .read ((closed_of_none (hmiss k)).trans ?_) (Kept.notes_of_lt hle)
    (Nat.lt_succ_of_lt (Nat.lt_succ_self _))
  exact Attempt.bind_of_some (Attempt.punct_of_next rfl)

theorem itemsTail_last {d : Cursor} {fuel : Nat} (hg : g p k = (some (a, d.place), l))
    (hl : l.Notes d) (hd : Avoids (asPunct .comma) d.rest) :
    Follows [] (d.rest.length + 1) (Attempt.closed g closing (size + 1)) p k
      (Parse.itemsTail parser closing fuel a d) := by
  have hmiss : Misses (Attempt.punct .comma) d.place [.punct .comma] := .token hd
  have htail : Parse.itemsTail parser closing fuel a d =
      (Parse.punct closing >>= fun _ => pure [a])
        ⟨d.rest, d.lastStop, d.tried ++ [.punct .comma]⟩ :=
    Parse.bind_of_ok (Parse.take?_none hd)
  have hclose := close_tracks closing [a] _ _ (Nat.lt_succ_self _) (hl.joined [.punct .comma])
  rw [htail]
  exact hclose.congr (closed_of_last hg (hmiss l))

theorem itemsTail_more {d : Cursor} {fuel bound : Nat} {span : Span} {rest : Tokens}
    (hg : g p k = (some (a, d.place), l)) (hd : d.rest = ⟨.punct .comma, span⟩ :: rest)
    (hmore : Follows [] bound (Attempt.closed g closing size) ⟨rest, span.stop⟩ l
      (Parse.items parser closing fuel ⟨rest, span.stop, []⟩)) :
    Follows [] bound (Attempt.closed g closing (size + 1)) p k
      (Parse.itemsTail parser closing fuel a d) := by
  have htail : Parse.itemsTail parser closing fuel a d =
      Parse.items parser closing fuel ⟨rest, span.stop, []⟩ >>= fun r => .ok (a :: r.1, r.2) := by
    obtain ⟨_, lastStop, tried⟩ := d
    obtain rfl := hd
    exact Parse.bind_of_ok Parse.punct?_next
  rw [htail]
  exact (hmore.bind_pure (a :: ·)).congr (closed_of_more hg (Attempt.punct_of_next hd))

/-- Items up to the closing sign. The parser looks for that sign before each item, and the attempt
only after it has failed to read one more. -/
theorem items_follows (hitem : Opens signs n first looked g parser)
    (hfirst : first (.punct closing) = false) (hcomma : .comma ∉ signs) (hclosing : closing ∉ signs)
    (fuel : Nat) (c : Cursor) (hn : c.rest.length < n) (hsize : c.rest.length < size)
    (hfuel : c.rest.length < fuel) (hk : k.Notes c) :
    Follows [] (c.rest.length + 1) (Attempt.closed g closing size) c.place k
      (Parse.items parser closing fuel c) := by
  induction size generalizing fuel c k with
  | zero => cases hsize
  | succ size ih =>
  obtain _ | fuel := fuel
  · cases hfuel
  obtain hc | ⟨span, rest, hc⟩ := avoids_or_punct closing c.rest
  · by_cases hstarts : ∀ t ∈ c.rest.head?, first t.item = false
    · refine items_refused hc (fun tried => ?_) (hitem.refuses c hn hstarts).2 hk
      exact (hitem.refuses ⟨c.rest, c.lastStop, tried⟩ hn hstarts).1
    · obtain ⟨t, rest, hrest, ht⟩ : ∃ t rest, c.rest = t :: rest ∧ first t.item = true := by
        cases hrest : c.rest with
        | nil => simp [hrest] at hstarts
        | cons t rest => exact ⟨t, rest, rfl, by simpa [hrest] using hstarts⟩
      obtain ⟨htried, hread⟩ := hitem.takes c k t rest hrest ht hn hk.le
      rw [items_of_avoids hc]
      change Follows _ _ _ _ _
        (parser ⟨_, _, _⟩ >>= fun r => Parse.itemsTail parser closing fuel r.1 r.2)
      rw [htried]
      generalize parser c = o at hread ⊢
      cases hread with
      | @read a d l run notes fewer =>
        obtain hd | ⟨span, rest, hd⟩ := avoids_or_punct .comma d.rest
        · exact (itemsTail_last run notes hd).mono (List.Subset.refl _) (by omega)
        · have hlength : rest.length < d.rest.length := by simp [hd]
          have hlt : rest.length < c.rest.length := Nat.lt_trans hlength fewer
          have hmore := ih fuel ⟨rest, span.stop, []⟩ (Nat.lt_trans hlt hn)
            (Nat.lt_of_lt_of_le hlt (Nat.le_of_lt_succ hsize))
            (Nat.lt_of_lt_of_le hlt (Nat.le_of_lt_succ hfuel))
            (Kept.notes_of_lt (Nat.lt_of_lt_of_le hlength notes.le))
          exact (itemsTail_more run hd hmore).mono (List.Subset.refl _)
            (Nat.succ_le_succ (Nat.le_of_lt hlt))
      | failed run alike settled =>
        refine .failed ((closed_of_none run).trans ?_) alike (settled.mono (Nat.le_succ _))
        exact close_misses hc settled
      | less run alike settled stands there =>
        have hmiss : Misses (Attempt.punct .comma) _ _ := .token (stands.avoids hcomma)
        refine .failed ((closed_of_last run (hmiss _)).trans ?_) alike
          (settled.mono (Nat.le_succ _))
        rw [there.join]
        exact close_misses (stands.avoids hclosing) there
  · have hstarts : ∀ t ∈ c.rest.head?, first t.item = false := by simpa [hc] using hfirst
    exact items_closed hc (hitem.refuses c hn hstarts).2 hk

/-- A group of items that begins with its opening sign. -/
theorem group_opens {opening : Punct} {fuel : Nat} (hitem : Opens signs n first looked g parser)
    (hfirst : first (.punct closing) = false) (hcomma : .comma ∉ signs) (hclosing : closing ∉ signs)
    (hsize : n ≤ size) (hfuel : n ≤ fuel) :
    Opens [] (n + 1) (fun t => (asPunct opening t).isSome) [.punct opening]
      (Attempt.group opening closing g size)
      (Parse.punct opening >>= fun _ => Parse.items parser closing fuel) :=
  Opens.token.bind (Nat.le_refl _) (fun _ => .nil) fun _ c _ hc hk =>
    items_follows hitem hfirst hcomma hclosing fuel c hc (by omega) (by omega) hk

end Items

section Expressions
variable {n size fuel : Nat}

def startsExpr : Token → Bool
  | .text _ | .number _ | .ident _ => true
  | .punct b => b = .bracketOpen || b = .braceOpen
  | .keyword _ => false

def exprStarts : List Expected := [.punct .bracketOpen, .punct .braceOpen]

theorem startsExpr_eq_false {t : Token} (h : startsExpr t = false) :
    asLiteral t = none ∧ asIdent t = none ∧ asPunct .bracketOpen t = none ∧
      asPunct .braceOpen t = none := by
  cases t with
  | punct b =>
    have hb : b ≠ .bracketOpen ∧ b ≠ .braceOpen := by simpa [startsExpr] using h
    exact ⟨rfl, rfl, if_neg hb.1, if_neg hb.2⟩
  | keyword => exact ⟨rfl, rfl, rfl, rfl⟩
  | text | number | ident => cases h

theorem expr_misses {p : Place} (hp : ∀ t ∈ p.rest.head?, startsExpr t.item = false) :
    Misses (Attempt.expr (size + 1)) p exprStarts := by
  have hnone := fun t ht => startsExpr_eq_false (hp t ht)
  have hliteral : Misses (Attempt.token [] asLiteral) p [] := .token fun t ht => (hnone t ht).1
  have hident : Misses Attempt.ident p [] := .token fun t ht => (hnone t ht).2.1
  have hlist : Misses (Attempt.punct .bracketOpen) p [.punct .bracketOpen] :=
    .token fun t ht => (hnone t ht).2.2.1
  have hdict : Misses (Attempt.punct .braceOpen) p [.punct .braceOpen] :=
    .token fun t ht => (hnone t ht).2.2.2
  exact .spanned <| .orElse hliteral.bind <| .orElse hident.bind <| .orElse hident.bind <|
    .orElse (.bind (.bind hlist)) (.bind (.bind hdict))

theorem expr_refuses {c : Cursor} (hc : ∀ t ∈ c.rest.head?, startsExpr t.item = false) :
    Parse.expr (fuel + 1) c =
      .error (.unexpected c.rest.head? c.lastStop (c.tried ++ exprStarts)) := by
  have hnone := fun t ht => startsExpr_eq_false (hc t ht)
  have hliteral : Avoids asLiteral c.rest := fun t ht => (hnone t ht).1
  have hident : Avoids asIdent c.rest := fun t ht => (hnone t ht).2.1
  have hlist : Avoids (asPunct .bracketOpen) c.rest := fun t ht => (hnone t ht).2.2.1
  have hdict : Avoids (asPunct .braceOpen) c.rest := fun t ht => (hnone t ht).2.2.2
  refine (Parse.bind_of_ok (Parse.take?_none hliteral)).trans ?_
  refine (Parse.bind_of_ok (Parse.take?_none hident)).trans ?_
  refine (Parse.bind_of_ok (Parse.take?_none hlist)).trans ?_
  refine (Parse.bind_of_error (Parse.bind_of_ok (Parse.take?_none hdict))).trans ?_
  simp [exprStarts]

/-- Where an identifier comes first, its arguments decide. -/
theorem expr_of_ident {s : String} {span : Span} {rest : Tokens} {lastStop : Nat} {k l : Kept} :
    let p : Place := ⟨⟨.ident s, span⟩ :: rest, lastStop⟩
    let group := Attempt.group .parenOpen .parenClose (Attempt.argument (Attempt.expr size)) size
    (group ⟨rest, span.stop⟩ (k.join p []) = (none, l) →
      Attempt.expr (size + 1) p k = (some (.ident s span, ⟨rest, span.stop⟩), l)) ∧
    ∀ args q, group ⟨rest, span.stop⟩ (k.join p []) = (some (args, q), l) →
      Attempt.expr (size + 1) p k =
        (some (.call ⟨s, span⟩ args ⟨span.start, q.lastStop⟩, q), l) := by
  intro p group
  have hliteral : Misses (Attempt.token [] asLiteral) p [] := .token (avoids_cons rfl)
  refine ⟨fun hgroup => ?_, fun args q hgroup => ?_⟩
  · refine Attempt.spanned_of_some (q := ⟨rest, span.stop⟩) (Expr.ident s) ?_
    rw [Attempt.orElse_of_none (hliteral.bind k), Attempt.orElse_of_none (l := l)]
    · exact Attempt.orElse_of_some (Attempt.bind_of_some Attempt.ident_next)
    · exact (Attempt.bind_of_some Attempt.ident_next).trans (Attempt.bind_of_none hgroup)
  · refine Attempt.spanned_of_some (Expr.call ⟨s, span⟩ args) ?_
    rw [Attempt.orElse_of_none (hliteral.bind k)]
    exact Attempt.orElse_of_some ((Attempt.bind_of_some Attempt.ident_next).trans
      (Attempt.bind_of_some hgroup))

/-- What an identifier begins, whatever was looked for after it. -/
def TailFollows (n size fuel : Nat) : Prop :=
  ∀ (s : String) (span : Span) (rest : Tokens) (tried : List Expected) (lastStop : Nat) (k : Kept),
    rest.length < n → k.Notes ⟨rest, span.stop, tried⟩ →
      Follows [.parenOpen] (rest.length + 1) (Attempt.expr size)
        ⟨⟨.ident s, span⟩ :: rest, lastStop⟩ k
        (Parse.exprTail fuel ⟨s, span⟩ ⟨rest, span.stop, tried⟩)

abbrev ExprOpens (n size fuel : Nat) : Prop :=
  Opens [.parenOpen] n startsExpr exprStarts (Attempt.expr size) (Parse.expr fuel)

abbrev ArgumentOpens (n size fuel : Nat) : Prop :=
  Opens [.parenOpen, .colon] n startsExpr exprStarts (Attempt.argument (Attempt.expr size))
    (Parse.argument (Parse.expr fuel) (Parse.exprTail fuel))

theorem tail_follows (harg : ArgumentOpens n size fuel) (hsize : n ≤ size) (hfuel : n ≤ fuel) :
    TailFollows (n + 1) (size + 1) (fuel + 1) := by
  intro s span rest tried lastStop k hn hk
  have hgroup : Opens [] (n + 1) _ _
      (Attempt.group .parenOpen .parenClose (Attempt.argument (Attempt.expr size)) size) _ :=
    group_opens harg rfl (by decide) (by decide) hsize hfuel
  have hk : (k.join ⟨⟨.ident s, span⟩ :: rest, lastStop⟩ []).Notes ⟨rest, span.stop, tried⟩ :=
    hk.join_before (Nat.lt_succ_self _)
  obtain hrest | ⟨sp, more, rfl⟩ := avoids_or_punct .parenOpen rest
  · have htail : Parse.exprTail (fuel + 1) ⟨s, span⟩ ⟨rest, span.stop, tried⟩ =
        .ok (.ident s span, ⟨rest, span.stop, tried ++ [.punct .parenOpen]⟩) :=
      Parse.bind_of_ok (Parse.take?_none hrest)
    have hmiss : Misses (Attempt.punct .parenOpen) ⟨rest, span.stop⟩ [.punct .parenOpen] :=
      .token hrest
    rw [htail]
    exact .read (expr_of_ident.1 (hmiss.bind _)) (hk.joined _) (Nat.lt_succ_self _)
  · have hfollows := (hgroup.takes ⟨⟨.punct .parenOpen, sp⟩ :: more, span.stop, tried⟩ _ _ _ rfl
      rfl hn hk.le).2
    have htail : Parse.exprTail (fuel + 1) ⟨s, span⟩
        ⟨⟨.punct .parenOpen, sp⟩ :: more, span.stop, tried⟩ =
        ((Parse.punct .parenOpen >>= fun _ => Parse.items (Parse.argument (Parse.expr fuel)
          (Parse.exprTail fuel)) .parenClose fuel)
          ⟨⟨.punct .parenOpen, sp⟩ :: more, span.stop, tried⟩ >>= fun r =>
            .ok (.call ⟨s, span⟩ r.1 ⟨span.start, r.2.lastStop⟩, r.2)) := rfl
    rw [htail]
    revert hfollows
    generalize (Parse.punct .parenOpen >>= fun _ => Parse.items (Parse.argument (Parse.expr fuel)
          (Parse.exprTail fuel)) .parenClose fuel)
          ⟨⟨.punct .parenOpen, sp⟩ :: more, span.stop, tried⟩ = o
    intro hfollows
    cases hfollows with
    | read run notes fewer =>
      exact .read (expr_of_ident.2 _ _ run) notes (Nat.lt_succ_of_lt fewer)
    | failed run alike settled =>
      exact .less (expr_of_ident.1 run) alike (settled.mono (Nat.le_succ _))
        ⟨_, List.mem_singleton_self _, sp, more, rfl⟩ settled
    | less run alike settled stands => exact absurd stands not_stands_nil

theorem avoids_of_startsExpr {c : Cursor}
    (hc : ∀ t ∈ c.rest.head?, startsExpr t.item = false) : Avoids asIdent c.rest :=
  fun t ht => (startsExpr_eq_false (hc t ht)).2.1

/-- Without a leading identifier an argument is an expression. -/
theorem argument_of_avoids {c : Cursor} {value : Parse Expr} {afterIdent : Name → Parse Expr}
    (hc : Avoids asIdent c.rest) :
    Parse.argument value afterIdent c = (value >>= fun e => pure (none, e)) c := by
  have htake : Parse.take? [] asIdent c = .ok (none, c) := by
    rw [show c = ⟨c.rest, c.lastStop, c.tried⟩ from rfl, Parse.take?_none hc, List.append_nil]
  exact Parse.bind_of_ok htake

/-- A name without a colon after it begins a positional argument. -/
theorem argument_of_bare (htail : TailFollows n size fuel) {s : String} {span : Span}
    {rest : Tokens} {lastStop : Nat} {tried : List Expected} {k : Kept} (hn : rest.length < n)
    (hk : rest.length < k.left) (hrest : Avoids (asPunct .colon) rest) :
    Follows [.parenOpen, .colon] (rest.length + 1) (Attempt.argument (Attempt.expr size))
      ⟨⟨.ident s, span⟩ :: rest, lastStop⟩ k
      (Parse.argument (Parse.expr fuel) (Parse.exprTail fuel)
        ⟨⟨.ident s, span⟩ :: rest, lastStop, tried⟩) := by
  have hparse : Parse.argument (Parse.expr fuel) (Parse.exprTail fuel)
      ⟨⟨.ident s, span⟩ :: rest, lastStop, tried⟩ =
      (Parse.exprTail fuel ⟨s, span⟩ >>= fun e => pure (none, e))
        ⟨rest, span.stop, [.punct .colon]⟩ := by
    have hident : Parse.take? [] asIdent ⟨⟨.ident s, span⟩ :: rest, lastStop, tried⟩ =
        .ok (some ⟨s, span⟩, ⟨rest, span.stop, []⟩) := rfl
    exact (Parse.bind_of_ok hident).trans (Parse.bind_of_ok (Parse.take?_none hrest))
  have hcolon : Misses (Attempt.punct .colon) ⟨rest, span.stop⟩ [.punct .colon] := .token hrest
  have hnotes : k.Notes ⟨rest, span.stop, []⟩ := Kept.notes_of_lt hk
  have hvalue := htail s span rest [.punct .colon] lastStop _ hn (hnotes.joined [.punct .colon])
  rw [hparse]
  refine ((hvalue.bind_pure _).mono (by simp) (Nat.le_refl _)).congr (Attempt.orElse_of_none ?_)
  exact (Attempt.bind_of_some Attempt.ident_next).trans (Attempt.bind_of_none (hcolon k))

/-- With a colon after it the name is that of the argument. If no value can be read then, the name
alone is read as a positional argument, and the colon stays. -/
theorem argument_of_colon (hexpr : ExprOpens n (size + 1) fuel) {s : String} {span sp : Span}
    {more : Tokens} {lastStop : Nat} {tried : List Expected} {k : Kept} (hn : more.length < n)
    (hk : more.length < k.left) :
    Follows [.parenOpen, .colon] (more.length + 2) (Attempt.argument (Attempt.expr (size + 1)))
      ⟨⟨.ident s, span⟩ :: ⟨.punct .colon, sp⟩ :: more, lastStop⟩ k
      (Parse.argument (Parse.expr fuel) (Parse.exprTail fuel)
        ⟨⟨.ident s, span⟩ :: ⟨.punct .colon, sp⟩ :: more, lastStop, tried⟩) := by
  have hvalue := hexpr.tracks ⟨more, sp.stop, []⟩ k hn (Kept.notes_of_lt hk)
  have hnamed : Follows [.parenOpen] (more.length + 1)
      (Attempt.ident >>= fun name => Attempt.punct .colon >>= fun _ =>
        Attempt.expr (size + 1) >>= fun e => pure (some name, e))
      ⟨⟨.ident s, span⟩ :: ⟨.punct .colon, sp⟩ :: more, lastStop⟩ k
      (Parse.argument (Parse.expr fuel) (Parse.exprTail fuel)
        ⟨⟨.ident s, span⟩ :: ⟨.punct .colon, sp⟩ :: more, lastStop, tried⟩) :=
    (hvalue.bind_pure _).congr rfl
  revert hnamed
  generalize Parse.argument (Parse.expr fuel) (Parse.exprTail fuel)
    ⟨⟨.ident s, span⟩ :: ⟨.punct .colon, sp⟩ :: more, lastStop, tried⟩ = o
  intro hnamed
  have hle : more.length + 1 ≤ more.length + 2 := Nat.le_succ _
  cases hnamed with
  | read run notes fewer =>
    exact .read (Attempt.orElse_of_some run) notes (Nat.lt_of_lt_of_le fewer hle)
  | @failed r l run alike settled =>
    have hparen : Misses (Attempt.punct .parenOpen) ⟨⟨.punct .colon, sp⟩ :: more, span.stop⟩
      [.punct .parenOpen] := .token (avoids_cons rfl)
    have hident : Attempt.expr (size + 1)
        ⟨⟨.ident s, span⟩ :: ⟨.punct .colon, sp⟩ :: more, lastStop⟩ l =
        (some (.ident s span, ⟨⟨.punct .colon, sp⟩ :: more, span.stop⟩), l) := by
      refine expr_of_ident.1 ((hparen.bind _).trans ?_)
      rw [Kept.Settled.join (settled.mono (by simp)), Kept.Settled.join settled]
    exact .less ((Attempt.orElse_of_none run).trans (Attempt.bind_of_some hident)) alike
      (settled.mono hle) ⟨.colon, by simp, sp, more, rfl⟩ settled
  | less run alike settled stands there =>
    exact .less (Attempt.orElse_of_some run) alike (settled.mono hle) (stands.mono (by simp)) there

theorem argument_of_ident (hexpr : ExprOpens n size fuel) (htail : TailFollows n size fuel)
    (hsize : n ≤ size) {s : String} {span : Span} {rest : Tokens}
    {lastStop : Nat} {tried : List Expected} {k : Kept} (hn : rest.length < n)
    (hk : rest.length < k.left) :
    Follows [.parenOpen, .colon] (rest.length + 1) (Attempt.argument (Attempt.expr size))
      ⟨⟨.ident s, span⟩ :: rest, lastStop⟩ k
      (Parse.argument (Parse.expr fuel) (Parse.exprTail fuel)
        ⟨⟨.ident s, span⟩ :: rest, lastStop, tried⟩) := by
  obtain hrest | ⟨sp, more, rfl⟩ := avoids_or_punct .colon rest
  · exact argument_of_bare htail hn hk hrest
  · obtain _ | size := size
    · exact absurd (Nat.lt_of_lt_of_le hn hsize) (Nat.not_lt_zero _)
    exact argument_of_colon hexpr (Nat.lt_of_succ_lt hn) (Nat.lt_of_succ_lt hk)

theorem argument_opens (hexpr : ExprOpens n size fuel) (htail : TailFollows n size fuel)
    (hsize : n ≤ size) : ArgumentOpens n size fuel where
  refuses c hc hfirst := by
    have hident := avoids_of_startsExpr hfirst
    have hnamed : Misses Attempt.ident c.place [] := .token hident
    obtain ⟨hrefuses, hmiss⟩ := hexpr.refuses c hc hfirst
    refine ⟨?_, .orElse hnamed.bind hmiss.bind⟩
    rw [argument_of_avoids hident]
    exact Parse.bind_of_error hrefuses
  takes c k t rest hrest ht hc hk := by
    obtain hident | ⟨s, span, more, hmore⟩ := avoids_or_ident c.rest
    · have hnamed : Misses Attempt.ident c.place [] := .token hident
      obtain ⟨htried, hfollows⟩ := hexpr.takes c (k.join c.place []) t rest hrest ht hc
        (Kept.le_left_join (p := c.place) hk)
      refine ⟨fun tried => ?_, ?_⟩
      · rw [argument_of_avoids hident, argument_of_avoids (c := ⟨c.rest, c.lastStop, tried⟩) hident]
        change Parse.expr fuel ⟨_, _, tried⟩ >>= _ = Parse.expr fuel c >>= _
        rw [htried]
      · rw [argument_of_avoids hident]
        exact .skip hnamed.bind ((hfollows.bind_pure _).mono (by simp) (Nat.le_refl _))
    · obtain ⟨_, lastStop, tried⟩ := c
      obtain rfl := hmore
      exact ⟨fun _ => rfl, argument_of_ident hexpr htail hsize (Nat.lt_of_succ_lt hc) hk⟩

theorem entry_opens (hexpr : ExprOpens n size fuel) :
    Opens [.parenOpen] n (fun t => (asText t).isSome) [] (Attempt.entry (Attempt.expr size))
      (Parse.entry (Parse.expr fuel)) := by
  refine Opens.token.bind (Nat.le_succ n) (fun _ => .nil) fun key => ?_
  refine (Opens.token.bind (Nat.le_succ n) (fun _ => .nil) fun _ => ?_).tracks
  exact hexpr.tracks.bind (fun _ => .pure (List.Subset.refl _)) fun _ => .pure

/-- Where a sign comes first, only a list or a dictionary can be read. -/
theorem expr_of_sign (b : Punct) (span : Span) (lastStop : Nat) {rest : Tokens} {k : Kept}
    {o : Except Refusal ((Span → Expr) × Cursor)} (hk : rest.length < k.left)
    (h : ∀ l : Kept, rest.length < l.left → Follows [] (rest.length + 1)
      ((do return .list (← Attempt.group .bracketOpen .bracketClose (Attempt.expr size) size))
        <|> (do return .dict (← Attempt.group .braceOpen .braceClose
          (Attempt.entry (Attempt.expr size)) size)))
      ⟨⟨.punct b, span⟩ :: rest, lastStop⟩ l o) :
    Follows [] (rest.length + 1) (Attempt.expr (size + 1)) ⟨⟨.punct b, span⟩ :: rest, lastStop⟩ k
      (o >>= fun r => .ok (r.1 ⟨span.start, r.2.lastStop⟩, r.2)) := by
  let p : Place := ⟨⟨.punct b, span⟩ :: rest, lastStop⟩
  have hliteral : Misses (Attempt.token [] asLiteral) p [] := .token (avoids_cons rfl)
  have hident : Misses Attempt.ident p [] := .token (avoids_cons rfl)
  have hleft : ∀ {l : Kept}, rest.length < l.left → rest.length < (l.join p []).left :=
    fun hl => Kept.le_left_join (p := p) hl
  exact .spanned (.skip hliteral.bind (.skip hident.bind (.skip hident.bind
    (h _ (hleft (hleft (hleft hk)))))))

theorem list_follows {span : Span} {rest : Tokens} {lastStop : Nat} {tried : List Expected}
    {k : Kept} (hexpr : ExprOpens n size fuel) (hsize : n ≤ size) (hfuel : n ≤ fuel)
    (hn : rest.length < n) (hk : rest.length < k.left) :
    Follows [] (rest.length + 1) (Attempt.expr (size + 1))
      ⟨⟨.punct .bracketOpen, span⟩ :: rest, lastStop⟩ k
      (Parse.expr (fuel + 1) ⟨⟨.punct .bracketOpen, span⟩ :: rest, lastStop, tried⟩) := by
  have hgroup : Opens [] (n + 1) _ _
      (Attempt.group .bracketOpen .bracketClose (Attempt.expr size) size) _ :=
    group_opens hexpr rfl (by decide) (by decide) hsize hfuel
  let c : Cursor := ⟨⟨.punct .bracketOpen, span⟩ :: rest, lastStop, tried⟩
  have hdict : Misses (Attempt.punct .braceOpen) c.place _ := .token (avoids_cons rfl)
  have hchoice := expr_of_sign .bracketOpen span lastStop hk fun l hl =>
    ((hgroup.takes c l _ _ rfl rfl (Nat.succ_lt_succ hn) hl).2.bind_pure Expr.list).orElse
      (Nat.le_refl _) hdict.bind.bind
  rw [bind_spanned] at hchoice
  exact hchoice

theorem dict_follows {span : Span} {rest : Tokens} {lastStop : Nat} {tried : List Expected}
    {k : Kept} (hexpr : ExprOpens n size fuel) (hsize : n ≤ size) (hfuel : n ≤ fuel)
    (hn : rest.length < n) (hk : rest.length < k.left) :
    Follows [] (rest.length + 1) (Attempt.expr (size + 1))
      ⟨⟨.punct .braceOpen, span⟩ :: rest, lastStop⟩ k
      (Parse.expr (fuel + 1) ⟨⟨.punct .braceOpen, span⟩ :: rest, lastStop, tried⟩) := by
  let c : Cursor := ⟨⟨.punct .braceOpen, span⟩ :: rest, lastStop, tried⟩
  have hgroup : Opens [] (n + 1) _ _
      (Attempt.group .braceOpen .braceClose (Attempt.entry (Attempt.expr size)) size) _ :=
    group_opens (entry_opens hexpr) rfl (by decide) (by decide) hsize hfuel
  have hlist : Misses (Attempt.punct .bracketOpen) c.place _ := .token (avoids_cons rfl)
  have hchoice := expr_of_sign .braceOpen span lastStop hk fun l hl =>
    have hleft := Kept.le_left_join (p := c.place) hl
    .skip hlist.bind.bind
      ((hgroup.takes c _ _ _ rfl rfl (Nat.succ_lt_succ hn) hleft).2.bind_pure Expr.dict)
  rw [bind_spanned] at hchoice
  exact hchoice

theorem expr_opens (hexpr : ExprOpens n size fuel) (htail : TailFollows n (size + 1) fuel)
    (hsize : n ≤ size) (hfuel : n ≤ fuel) : ExprOpens (n + 1) (size + 1) (fuel + 1) where
  refuses c hc hfirst := ⟨expr_refuses hfirst, expr_misses hfirst⟩
  takes c k t rest hrest ht hc hk := by
    obtain ⟨_, lastStop, tried⟩ := c
    obtain rfl := hrest
    obtain ⟨item, span⟩ := t
    have hnotes : k.Notes ⟨rest, span.stop, []⟩ := Kept.notes_of_lt hk
    cases item with
    | text s => exact ⟨fun _ => rfl, .read rfl hnotes (Nat.lt_succ_self _)⟩
    | number x => exact ⟨fun _ => rfl, .read rfl hnotes (Nat.lt_succ_self _)⟩
    | ident s =>
      exact ⟨fun _ => rfl, htail s span rest [] lastStop k (Nat.lt_of_succ_lt_succ hc) hnotes⟩
    | keyword w => cases ht
    | punct b =>
      have hn := Nat.lt_of_succ_lt_succ hc
      have hb : b = .bracketOpen ∨ b = .braceOpen := by simpa [startsExpr] using ht
      obtain rfl | rfl := hb
      · exact ⟨fun _ => rfl, (list_follows hexpr hsize hfuel hn hk).mono (by simp) (Nat.le_refl _)⟩
      · exact ⟨fun _ => rfl, (dict_follows hexpr hsize hfuel hn hk).mono (by simp) (Nat.le_refl _)⟩

theorem expr_agrees (n : Nat) : ∀ size fuel, n ≤ size → n ≤ fuel →
    ExprOpens n size fuel ∧ TailFollows n size fuel := by
  induction n with
  | zero =>
    intro size fuel _ _
    exact ⟨⟨fun _ hc => absurd hc (Nat.not_lt_zero _), fun _ _ _ _ _ _ hc =>
      absurd hc (Nat.not_lt_zero _)⟩, fun _ _ _ _ _ _ hn => absurd hn (Nat.not_lt_zero _)⟩
  | succ n ih =>
    intro size fuel hsize hfuel
    obtain _ | size := size
    · cases hsize
    obtain _ | fuel := fuel
    · cases hfuel
    have hsize := Nat.le_of_succ_le_succ hsize
    have hfuel := Nat.le_of_succ_le_succ hfuel
    obtain ⟨hexpr, htail⟩ := ih size fuel hsize hfuel
    exact ⟨expr_opens hexpr (ih (size + 1) fuel (Nat.le_succ_of_le hsize) hfuel).2 hsize hfuel,
      tail_follows (argument_opens hexpr htail hsize) hsize hfuel⟩

end Expressions
end BlockTemplate.Script
