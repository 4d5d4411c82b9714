import BlockTemplate.Proofs.Script.Recognition
import BlockTemplate.Proofs.Script.Respacing

/-! A refused script is blamed at its first impossible token: all before it can be completed to a
script that parses, and nothing that begins with it as well is one. -/
namespace BlockTemplate.Script

/-- The tokens of a source, wherever they stand. -/
def tokenItems (source : String) : List Token := (tokensOf (lex source)).map (·.item)

/-- They are the tokens of a source that parses. -/
def Complete (ts : List Token) : Prop :=
  ∃ source script, parse source = .ok script ∧ tokenItems source = ts

/-- A source that parses begins with these tokens. -/
def Completable (ts : List Token) : Prop := ∃ more, Complete (ts ++ more)

theorem Complete.form {items : List Token} (h : Complete items) {ts : Tokens}
    (hts : ts.map (·.item) = items) : ∃ script, ScriptForm ts script := by
  obtain ⟨source, script, hparse, hitems⟩ := h
  exact (parse_eq_ok_iff.1 hparse).2.move (hitems.trans hts.symm)

theorem complete_of_form {ts : Tokens} {script : List (Located Statement)}
    (h : ScriptForm ts script) (hts : ∀ t ∈ ts, t.item.Spellable) :
    Complete (ts.map (·.item)) := by
  obtain ⟨source, hread, hitems⟩ := exists_source (List.forall_mem_map.2 hts)
  obtain ⟨script, hscript⟩ := h.move hitems.symm
  exact ⟨source, script, parse_eq_ok_iff.2 ⟨hread, hscript⟩, hitems⟩

theorem Viable.completable {pre : Tokens} (h : Viable ScriptForm pre)
    (hpre : ∀ t ∈ pre, t.item.Spellable) : Completable (pre.map (·.item)) := by
  obtain ⟨more, script, hmore, hscript⟩ := h
  refine ⟨more.map (·.item), ?_⟩
  rw [← List.map_append]
  exact complete_of_form hscript (List.forall_mem_append.2 ⟨hpre, hmore⟩)

/-- What refuses a script refuses all that begin alike and go on with the same token. -/
theorem Decided.not_script {c : Cursor} {pre rest : Tokens} {e : Refusal}
    (h : Decided (fun n => Parse.statements (n + 1) (n + 1)) c pre rest fun _ => .error e)
    {more : Tokens} (hmore : more.head? = rest.head?) (script : List (Located Statement)) :
    ¬ ScriptForm (pre ++ more) script := by
  intro hscript
  have hyields : Yields c.lastStop (Parse.statements _ _) (pre ++ more) script [] :=
    Parse.statements_yields hscript (Nat.lt_succ_self _) (Nat.lt_succ_self _)
  obtain ⟨tried, hok⟩ := hyields c.tried
  have herror : Parse.statements _ _ ⟨pre ++ more, c.lastStop, c.tried⟩ = .error e :=
    h (pre ++ more).length more hmore (Nat.le_refl _)
  rw [List.append_nil] at hok
  rw [hok] at herror
  cases herror

theorem Keyword.word_inj {k l : Keyword} (h : k.word = l.word) : k = l := by
  have hword : ∀ k : Keyword, Keyword.ofWord? k.word = some k := by
    intro k
    cases k <;> rfl
  have hk := hword k
  rw [h, hword l] at hk
  exact (Option.some.inj hk).symm

theorem Punct.char_inj {p q : Punct} (h : p.char = q.char) : p = q := by
  have hchar : ∀ p : Punct, Punct.ofChar? p.char = some p := by
    intro p
    cases p <;> rfl
  have hp := hchar p
  rw [h, hchar q] at hp
  exact (Option.some.inj hp).symm

/-- A text that was expected names one token only. -/
theorem Expected.eq_of_describe {x : Expected} {t : Token} (h : x.describe = t.describe) :
    (∃ k, x = .keyword k ∧ t = .keyword k) ∨ ∃ p, x = .punct p ∧ t = .punct p := by
  have hchars := congrArg String.toList h
  cases x with
  | keyword k =>
    cases t with
    | keyword l =>
      have hword : k.word = l.word := by
        simpa [Expected.describe, Token.describe] using h
      exact .inl ⟨k, rfl, by rw [Keyword.word_inj hword]⟩
    | _ => simp [Expected.describe, Token.describe] at hchars
  | punct p =>
    cases t with
    | punct q =>
      have hchar : p.char = q.char := by
        simpa [Expected.describe, Token.describe] using hchars
      exact .inr ⟨p, rfl, by rw [Punct.char_inj hchar]⟩
    | _ => simp [Expected.describe, Token.describe] at hchars
  | endOfInput => cases t <;> simp [Expected.describe, Token.describe] at hchars

theorem Expected.eq_endOfInput {x : Expected} (h : x.describe = "end of input") :
    x = .endOfInput := by
  have hchars := congrArg String.toList h
  cases x with
  | endOfInput => rfl
  | _ => simp [Expected.describe, Token.describe] at hchars

theorem mem_expectedTexts {tried : List Expected} {text : String} :
    text ∈ expectedTexts tried ↔ ∃ x ∈ tried, x.describe = text := by
  rw [expectedTexts, List.mem_eraseDups, List.mem_map]

/-- What was found after these tokens, a token or the end, is the first that is impossible: a source
that parses begins with them, and none has them and then what was found. All that is listed as
expected could have stood there. -/
structure FirstFault (before : List Token) (found : Option Token) (expected : List String) :
    Prop where
  completable : Completable before
  impossible : ∀ t ∈ found, ¬ Completable (before ++ [t])
  incomplete : found = none → ¬ Complete before
  known : ∀ text ∈ expected, text = "end of input" ∨ ∃ t : Token, t.describe = text
  token : ∀ t : Token, t.describe ∈ expected → Completable (before ++ [t])
  ends : "end of input" ∈ expected → Complete before

section Stuck
variable {pre rest : Tokens} {c : Cursor} {e : Refusal} {tried : List Expected}

theorem Viable.completable_token {t : Token} (h : Viable ScriptForm (pre ++ [unplaced t]))
    (hpre : ∀ t ∈ pre, t.item.Spellable) (ht : t.Spellable) :
    Completable (pre.map (·.item) ++ [t]) := by
  have hcompletable := h.completable (List.forall_mem_append.2 ⟨hpre, by simpa using ht⟩)
  rwa [List.map_append] at hcompletable

theorem Decided.not_completable {t : Located Token}
    (h : Decided (fun n => Parse.statements (n + 1) (n + 1)) c pre (t :: rest) fun _ => .error e) :
    ¬ Completable (pre.map (·.item) ++ [t.item]) := by
  rintro ⟨more, hcomplete⟩
  have hitems : (pre ++ t :: more.map unplaced).map (·.item) =
      pre.map (·.item) ++ [t.item] ++ more := by
    simp [Function.comp_def]
  obtain ⟨script, hscript⟩ := hcomplete.form hitems
  have hhead : (t :: more.map unplaced).head? = (t :: rest).head? := rfl
  exact h.not_script hhead script hscript

theorem Decided.not_complete
    (h : Decided (fun n => Parse.statements (n + 1) (n + 1)) c pre [] fun _ => .error e) :
    ¬ Complete (pre.map (·.item)) := by
  intro hcomplete
  obtain ⟨script, hscript⟩ := hcomplete.form rfl
  rw [← List.append_nil pre] at hscript
  exact h.not_script rfl script hscript

theorem firstFault_of_stuck (hpre : ∀ t ∈ pre, t.item.Spellable) (viable : Viable ScriptForm pre)
    (fits : TriedFits true ScriptForm pre [] tried)
    (decided : Decided (fun n => Parse.statements (n + 1) (n + 1)) c pre rest fun _ => .error e) :
    FirstFault (pre.map (·.item)) (rest.head?.map (·.item)) (expectedTexts tried) := by
  have hfits : ∀ x ∈ tried, Fits true ScriptForm pre x := by
    intro x hx
    obtain ⟨_, hnil⟩ | hx := fits x hx
    · cases hnil
    · exact hx
  constructor
  case completable => exact viable.completable hpre
  case impossible =>
    cases rest with
    | nil => simp
    | cons t rest =>
      rintro _ ⟨⟩
      exact decided.not_completable
  case incomplete =>
    cases rest with
    | nil => exact fun _ => decided.not_complete
    | cons t rest => exact fun hnone => nomatch hnone
  case known =>
    intro text htext
    obtain ⟨x, hx, rfl⟩ := mem_expectedTexts.1 htext
    cases x with
    | keyword k => exact .inr ⟨.keyword k, rfl⟩
    | punct p => exact .inr ⟨.punct p, rfl⟩
    | endOfInput => exact .inl rfl
  case token =>
    intro t ht
    obtain ⟨x, hx, hdescribe⟩ := mem_expectedTexts.1 ht
    obtain ⟨k, rfl, rfl⟩ | ⟨p, rfl, rfl⟩ := Expected.eq_of_describe hdescribe
    · exact Viable.completable_token (hfits _ hx) hpre (by simp)
    · exact Viable.completable_token (hfits _ hx) hpre (by simp)
  case ends =>
    intro hend
    obtain ⟨x, hx, hdescribe⟩ := mem_expectedTexts.1 hend
    obtain rfl := Expected.eq_endOfInput hdescribe
    obtain ⟨_, script, hscript⟩ := hfits _ hx
    exact complete_of_form hscript hpre

end Stuck

/-- Such an error comes from the parser, and is its only one. -/
theorem parse_unexpected {source : String} {errors : List ScriptError} {found : Option Token}
    {expected : List String} {span : Span} (h : parse source = .error errors)
    (he : ScriptError.unread (.unexpected found expected) span ∈ errors) :
    parseTokens source.utf8ByteSize (tokensOf (lex source)) =
      .error (.unread (.unexpected found expected) span) := by
  cases hread : unreadableOf (lex source) with
  | nil =>
    simp only [parse, hread] at h
    cases hparse : parseTokens source.utf8ByteSize (tokensOf (lex source)) with
    | ok script =>
      rw [hparse] at h
      cases h
    | error e =>
      rw [hparse] at h
      cases h
      rw [List.mem_singleton.1 he]
  | cons e others =>
    simp only [parse, hread] at h
    cases h
    rw [← hread] at he
    obtain ⟨text, _, heq, _⟩ := unreadableOf_sound (lex_ordered source) _ he
    cases heq

/-- A source refused for a token, or for its end, is refused for the first that is impossible. -/
theorem parse_first_fault {source : String} {errors : List ScriptError} {found : Option Token}
    {expected : List String} {span : Span} (h : parse source = .error errors)
    (he : ScriptError.unread (.unexpected found expected) span ∈ errors) :
    ∃ before after, tokensOf (lex source) = before ++ after ∧
      found = after.head?.map (·.item) ∧ (∀ t ∈ after.head?, span = t.span) ∧
      FirstFault (before.map (·.item)) found expected := by
  have hparse := parse_unexpected h he
  have hagrees := parseTokens_agrees source.utf8ByteSize (tokensOf (lex source))
  have hlength : (startOf source.utf8ByteSize (tokensOf (lex source))).rest.length ≤
      (tokensOf (lex source)).length := Nat.le_refl _
  cases statements_outcome (startOf source.utf8ByteSize (tokensOf (lex source))) with
  | wrong role word refused =>
    rw [refused _ hlength] at hagrees
    obtain ⟨_, ⟨⟩, herror⟩ := hagrees
    rw [hparse] at herror
    cases herror
  | done pre rest a tried split hform fits decided =>
    rw [decided.self split hlength] at hagrees
    rw [hparse] at hagrees
    cases hagrees
  | stuck pre rest tried split viable fits decided =>
    rw [decided.self split hlength] at hagrees
    obtain ⟨_, ⟨same⟩, herror⟩ := hagrees
    rw [hparse] at herror
    have hspell : ∀ t ∈ pre, t.item.Spellable := by
      intro t ht
      have hmem : t ∈ pre ++ rest := List.mem_append_left rest ht
      rw [← split] at hmem
      exact spellable_of_lexed _ _ t hmem
    have hfault := firstFault_of_stuck hspell viable (fun x hx => fits x ((same x).1 hx)) decided
    refine ⟨pre, rest, split, ?_⟩
    cases rest with
    | nil =>
      cases herror
      exact ⟨rfl, by simp, hfault⟩
    | cons t rest =>
      cases herror
      exact ⟨rfl, by simp, hfault⟩

/-- Two names may come before a negation, and none after it. -/
def nameAfterNot : String := "repeat While Is not Sneak"

theorem parse_first_fault_nameAfterNot :
    ∃ expected, parse nameAfterNot =
        .error [.unread (.unexpected (some (.ident "Sneak")) expected) ⟨20, 25⟩] ∧
      "'('" ∈ expected ∧ "end of input" ∈ expected ∧
      FirstFault [.keyword .loop, .ident "While", .ident "Is", .keyword .negate]
        (some (.ident "Sneak")) expected := by
  have hread : unreadableOf (lex nameAfterNot) = [] := by decide +kernel
  have htokens : tokensOf (lex nameAfterNot) = [⟨.keyword .loop, ⟨0, 6⟩⟩, ⟨.ident "While", ⟨7, 12⟩⟩,
      ⟨.ident "Is", ⟨13, 15⟩⟩, ⟨.keyword .negate, ⟨16, 19⟩⟩, ⟨.ident "Sneak", ⟨20, 25⟩⟩] := by
    decide +kernel
  have hparse : parse nameAfterNot = .error [.unread (.unexpected (some (.ident "Sneak"))
      (expectedTexts ([.punct .parenOpen, .punct .braceOpen] ++ statementWords.map .keyword ++
        [.endOfInput]))) ⟨20, 25⟩] := by
    simp only [parse, hread, htokens]
    rfl
  obtain ⟨before, after, hsplit, hfound, -, hfault⟩ :=
    parse_first_fault hparse (List.mem_singleton_self _)
  refine ⟨_, hparse, mem_expectedTexts.2 ⟨.punct .parenOpen, by simp, rfl⟩,
    mem_expectedTexts.2 ⟨.endOfInput, by simp, rfl⟩, ?_⟩
  have hbefore : before.map (·.item) =
      [.keyword .loop, .ident "While", .ident "Is", .keyword .negate] := by
    rw [htokens] at hsplit
    -- no other token is that name
    obtain _ | ⟨_, _ | ⟨_, _ | ⟨_, _ | ⟨_, _ | ⟨_, before⟩⟩⟩⟩⟩ := before
    case cons.cons.cons.cons.nil =>
      cases hsplit
      rfl
    case cons.cons.cons.cons.cons =>
      have hnil : after = [] := by simp_all
      rw [hnil] at hfound
      cases hfound
    all_goals cases hsplit
    all_goals exact absurd hfound (by decide)
  rwa [hbefore] at hfault

end BlockTemplate.Script
