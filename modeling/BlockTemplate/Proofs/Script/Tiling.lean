import BlockTemplate.Proofs.Script.TokenText

/-! The lexemes of a source and the gaps between them are the whole source, and only blanks and
comments are gaps. -/
namespace BlockTemplate.Script

/-- Blanks and comments, before what follows them. A comment goes on to the end of its line. -/
inductive Skipped : List Char → List Char → Prop
  | empty : Skipped [] after
  | blank : isSpace c = true → Skipped gap after → Skipped (c :: gap) after
  | comment : '\n' ∉ body → (∀ c ∈ (gap ++ after).head?, c = '\n') → Skipped gap after →
      Skipped ('/' :: '/' :: (body ++ gap)) after

/-- What is read from a text before the rest: the longest token there is, or no token and nothing to
skip either. -/
def Lexeme.At (text rest : List Char) : Lexeme → Prop
  | .token t => TokenText text t ∧
      ∀ longer u, longer <+: text ++ rest → TokenText longer u → longer.length ≤ text.length
  | .unreadable s => s = String.ofList text ∧ text ≠ [] ∧
      (∀ other u, other <+: text ++ rest → ¬ TokenText other u) ∧
      ∀ gap after, text ++ rest = gap ++ after → Skipped gap after → gap = []

/-- A text as gaps and lexemes by turns, from an offset on. -/
inductive Tiled : Nat → List Char → List (Located Lexeme) → Prop
  | done {start : Nat} {gap : List Char} : Skipped gap [] → Tiled start gap []
  | item {start : Nat} {gap text rest : List Char} {lexeme : Lexeme} {span : Span}
      {xs : List (Located Lexeme)} : Skipped gap (text ++ rest) → lexeme.At text rest →
      span.start = start + byteLength gap → span.stop = span.start + byteLength text →
      Tiled span.stop rest xs →
      Tiled start (gap ++ (text ++ rest)) (⟨lexeme, span⟩ :: xs)

/-- Ranges one after the other between two offsets, none of them empty. -/
def Row : Nat → Nat → List Span → Prop
  | low, high, [] => low ≤ high
  | low, high, s :: rest => low ≤ s.start ∧ s.start < s.stop ∧ Row s.stop high rest

namespace Row
variable {low high : Nat} {spans : List Span}

theorem le (h : Row low high spans) : low ≤ high := by
  induction spans generalizing low with
  | nil => exact h
  | cons s rest ih => exact Nat.le_trans h.1 (Nat.le_trans (Nat.le_of_lt h.2.1) (ih h.2.2))

theorem bounds (h : Row low high spans) {s : Span} (hs : s ∈ spans) :
    low ≤ s.start ∧ s.start < s.stop ∧ s.stop ≤ high := by
  induction spans generalizing low with
  | nil => cases hs
  | cons first rest ih =>
    obtain ⟨hlow, hfirst, hrest⟩ := h
    obtain rfl | hs := List.mem_cons.1 hs
    · exact ⟨hlow, hfirst, hrest.le⟩
    · obtain ⟨hstart, hs⟩ := ih hrest hs
      exact ⟨by omega, hs⟩

end Row

theorem byteLength_pos {cs : List Char} (h : cs ≠ []) : 0 < byteLength cs := by
  cases cs with
  | nil => exact absurd rfl h
  | cons c cs => exact Nat.add_pos_left c.utf8Size_pos _

namespace Lexeme
variable {text rest : List Char} {lexeme : Lexeme}

theorem At.ne_nil (h : lexeme.At text rest) : text ≠ [] := by
  cases lexeme with
  | token t => exact h.1.ne_nil
  | unreadable s => exact h.2.1

end Lexeme

section Pieces
variable {c : Char} {rest : List Char} {n : Nat}

/-- What is skipped at once: a blank, or a comment. -/
theorem readPiece_blank (h : readPiece c rest = (.blank, n)) :
    (isSpace c = true ∧ n = 0) ∨ (c = '/' ∧ ∃ line, rest = '/' :: line ∧
      n = (line.takeWhile (· ≠ '\n')).length + 1) := by
  unfold readPiece at h
  split at h
  · next hspace =>
    cases h
    exact .inl ⟨hspace, rfl⟩
  split at h
  · next hslash =>
    obtain ⟨hc, hhead⟩ := (Bool.and_eq_true _ _).mp hslash
    obtain ⟨line, rfl⟩ := List.head?_eq_some_iff.1 (of_decide_eq_true hhead)
    cases h
    exact .inr ⟨of_decide_eq_true hc, line, rfl, by simp⟩
  split at h
  · cases h
  split at h
  · cases h
  split at h
  · cases h
  split at h
  · split at h <;> cases h
  · split at h <;> cases h

/-- Nothing can be skipped where a text is unreadable. -/
theorem no_gap_of_readPiece (h : readPiece c rest = (.unreadable, n)) {gap after : List Char}
    (heq : c :: rest = gap ++ after) (hgap : Skipped gap after) : gap = [] := by
  cases hgap with
  | empty => rfl
  | blank hspace _ =>
    obtain ⟨rfl, _⟩ := List.cons.inj heq
    simp [readPiece, hspace] at h
  | comment _ _ _ =>
    obtain ⟨rfl, rfl⟩ := List.cons.inj heq
    simp [readPiece, isSpace] at h

/-- A comment is skipped up to the end of its line. -/
theorem skipped_line {line gap after : List Char}
    (heq : line.drop (line.takeWhile (· ≠ '\n')).length = gap ++ after) (hgap : Skipped gap after) :
    Skipped ('/' :: '/' :: (line.take (line.takeWhile (· ≠ '\n')).length ++ gap)) after := by
  have hline : line.takeWhile (· ≠ '\n') ++ line.dropWhile (· ≠ '\n') = line :=
    List.takeWhile_append_dropWhile
  have hbody : '\n' ∉ line.takeWhile (· ≠ '\n') := by
    intro hmem
    simpa using List.all_eq_true.1 List.all_takeWhile _ hmem
  have hend : ∀ c ∈ (line.dropWhile (· ≠ '\n')).head?, c = '\n' := by
    intro c hc
    have hnot := List.head?_dropWhile_not (· ≠ '\n') line
    rw [hc] at hnot
    simpa using hnot
  -- From here on the line is a body without line feeds and the others, which begin with one if
  -- there are any.
  generalize line.takeWhile (· ≠ '\n') = body at hline hbody heq ⊢
  generalize line.dropWhile (· ≠ '\n') = others at hline hend
  subst hline
  rw [List.drop_left] at heq
  subst heq
  rw [List.take_left]
  exact .comment hbody hend hgap

theorem at_of_readPiece_token {t : Token} (h : readPiece c rest = (.token t, n)) :
    (Lexeme.token t).At (c :: rest.take n) (rest.drop n) := by
  refine ⟨tokenText_of_readPiece h, fun longer u hfront hlonger => ?_⟩
  rw [List.cons_append, List.take_append_drop] at hfront
  have hread := longest_of_readPiece h hfront hlonger
  have hlength := hfront.length_le
  simp only [List.length_cons, List.length_take] at hlength ⊢
  omega

theorem at_of_readPiece_unreadable (h : readPiece c rest = (.unreadable, n)) :
    (Lexeme.unreadable (String.ofList (c :: rest.take n))).At (c :: rest.take n) (rest.drop n) := by
  have hwhole : c :: rest.take n ++ rest.drop n = c :: rest := by
    rw [List.cons_append, List.take_append_drop]
  refine ⟨rfl, List.cons_ne_nil _ _, fun other u hfront => ?_, fun gap after heq hgap => ?_⟩
  · rw [hwhole] at hfront
    exact no_token_of_readPiece h hfront
  · rw [hwhole] at heq
    exact no_gap_of_readPiece h heq hgap

end Pieces

namespace Tiled
variable {start : Nat} {cs blank : List Char} {xs : List (Located Lexeme)}

/-- What is skipped joins the first gap. -/
theorem skip (h : Tiled (start + byteLength blank) cs xs)
    (hblank : ∀ gap after, cs = gap ++ after → Skipped gap after → Skipped (blank ++ gap) after) :
    Tiled start (blank ++ cs) xs := by
  cases h with
  | done hgap => exact .done (hblank _ _ (List.append_nil _).symm hgap)
  | item hgap hat hstart hstop hrest =>
    rw [← List.append_assoc]
    refine .item (hblank _ _ rfl hgap) hat ?_ hstop hrest
    rw [hstart, byteLength_append, Nat.add_assoc]

theorem row (h : Tiled start cs xs) : Row start (start + byteLength cs) (xs.map Located.span) := by
  induction h with
  | done _ => exact Nat.le_add_right _ _
  | item _ hat hstart hstop _ ih =>
    have hpos := byteLength_pos hat.ne_nil
    rw [byteLength_append, byteLength_append, ← Nat.add_assoc, ← Nat.add_assoc, ← hstart, ← hstop]
    exact ⟨hstart ▸ Nat.le_add_right _ _, hstop ▸ Nat.lt_add_of_pos_right hpos, ih⟩

/-- Every lexeme is read from the text at its place. -/
theorem shows (h : Tiled start cs xs) {x : Located Lexeme} (hx : x ∈ xs) :
    ∃ before text after, cs = before ++ (text ++ after) ∧ x.span.start = start + byteLength before ∧
      x.span.stop = start + byteLength (before ++ text) ∧ x.item.At text after := by
  induction h with
  | done _ => cases hx
  | @item start gap text rest lexeme span xs hgap hat hstart hstop _ ih =>
    obtain rfl | hx := List.mem_cons.1 hx
    · refine ⟨gap, text, rest, rfl, hstart, ?_, hat⟩
      rw [hstop, hstart, byteLength_append, Nat.add_assoc]
    · obtain ⟨before, text', after, rfl, hstart', hstop', hat'⟩ := ih hx
      have hoffset : ∀ cs,
          span.stop + byteLength cs = start + byteLength (gap ++ (text ++ cs)) := by
        intro cs
        rw [byteLength_append, byteLength_append]
        omega
      refine ⟨gap ++ (text ++ before), text', after, by simp, ?_, ?_, hat'⟩
      · rw [hstart', hoffset]
      · rw [hstop', hoffset]
        simp

end Tiled

theorem lexChars_tiled (start : Nat) (cs : List Char) : Tiled start cs (lexChars start cs) := by
  match cs with
  | [] =>
    rw [lexChars]
    exact .done .empty
  | c :: rest =>
    rw [lexChars]
    cases hpiece : readPiece c rest with
    | mk piece n =>
      have hothers := lexChars_tiled (start + byteLength (c :: rest.take n)) (rest.drop n)
      have hwhole : c :: rest = (c :: rest.take n) ++ rest.drop n := by
        rw [List.cons_append, List.take_append_drop]
      cases piece with
      | blank =>
        -- It joins the gap before the next lexeme, so a comment has to end where that gap begins.
        rw [hwhole]
        refine hothers.skip fun gap after heq hgap => ?_
        obtain ⟨hspace, rfl⟩ | ⟨rfl, line, rfl, rfl⟩ := readPiece_blank hpiece
        · exact .blank hspace hgap
        · exact skipped_line heq hgap
      | token t =>
        rw [hwhole]
        exact .item .empty (at_of_readPiece_token hpiece) rfl rfl hothers
      | unreadable =>
        rw [hwhole]
        exact .item .empty (at_of_readPiece_unreadable hpiece) rfl rfl hothers
termination_by cs.length
decreasing_by simp only [List.length_cons, List.length_drop]; omega

theorem byteLength_toList (s : String) : byteLength s.toList = s.utf8ByteSize := by
  rw [byteLength_eq, String.ofList_toList]

theorem lex_row (source : String) : Row 0 source.utf8ByteSize ((lex source).map Located.span) := by
  have h := (lexChars_tiled 0 source.toList).row
  rwa [byteLength_toList, Nat.zero_add] at h

/-- The source can be cut at both ends of every lexeme, and the lexeme is read from what is between
them. -/
theorem lex_shows {source : String} {x : Located Lexeme} (hx : x ∈ lex source) :
    ∃ before text after : String, source = before ++ text ++ after ∧
      x.span = ⟨before.utf8ByteSize, (before ++ text).utf8ByteSize⟩ ∧
      x.item.At text.toList after.toList := by
  obtain ⟨before, text, after, hsource, hstart, hstop, hat⟩ :=
    (lexChars_tiled 0 source.toList).shows hx
  rw [Nat.zero_add, byteLength_eq] at hstart hstop
  refine ⟨String.ofList before, String.ofList text, String.ofList after, ?_, ?_, ?_⟩
  · rw [← String.ofList_append, ← String.ofList_append, List.append_assoc, ← hsource,
      String.ofList_toList]
  · rw [← String.ofList_append, ← hstart, ← hstop]
  · rwa [String.toList_ofList, String.toList_ofList]

theorem mem_of_unreadableOf {xs : List (Located Lexeme)} {e : ScriptError}
    (he : e ∈ unreadableOf xs) : ∃ text span, e = .unread (.unreadable text) span ∧
      ⟨.unreadable text, span⟩ ∈ xs := by
  induction xs with
  | nil => cases he
  | cons x rest ih =>
    obtain ⟨item, span⟩ := x
    cases item with
    | token t =>
      obtain ⟨text, place, heq, hmem⟩ := ih he
      exact ⟨text, place, heq, List.mem_cons_of_mem _ hmem⟩
    | unreadable text =>
      obtain rfl | he := List.mem_cons.1 he
      · exact ⟨text, span, rfl, List.mem_cons_self⟩
      · obtain ⟨text, place, heq, hmem⟩ := ih he
        exact ⟨text, place, heq, List.mem_cons_of_mem _ hmem⟩

theorem cut_append (before after : String) : Cut (before ++ after) before.utf8ByteSize := by
  have h := cut_take (before ++ after) before.toList.length
  rwa [String.toList_append, List.take_left, byteLength_toList] at h

/-- The lexemes are not empty, one after the other and on whole characters, and all that is between
them is blanks and comments. Each is the longest token at its place or, where there is no token,
text that is kept for the error about it. -/
theorem lex_accounts (source : String) :
    Tiled 0 source.toList (lex source) ∧
    Row 0 source.utf8ByteSize ((lex source).map Located.span) ∧
    (∀ x ∈ lex source, Cut source x.span.start ∧ Cut source x.span.stop ∧
      ∃ before text after : String, source = before ++ text ++ after ∧
        x.span = ⟨before.utf8ByteSize, (before ++ text).utf8ByteSize⟩ ∧
        x.item.At text.toList after.toList) ∧
    ∀ e ∈ unreadableOf (lex source), ∃ before text after : String,
      source = before ++ text ++ after ∧
      e = .unread (.unreadable text) ⟨before.utf8ByteSize, (before ++ text).utf8ByteSize⟩ := by
  refine ⟨lexChars_tiled 0 source.toList, lex_row source, fun x hx => ?_, fun e he => ?_⟩
  · obtain ⟨before, text, after, rfl, hspan, hat⟩ := lex_shows hx
    rw [hspan]
    refine ⟨?_, cut_append _ _, before, text, after, rfl, rfl, hat⟩
    rw [String.append_assoc]
    exact cut_append _ _
  · obtain ⟨text, span, rfl, hmem⟩ := mem_of_unreadableOf he
    obtain ⟨before, read, after, hsource, rfl, hread, _⟩ := lex_shows hmem
    rw [String.ofList_toList] at hread
    subst hread
    exact ⟨before, text, after, hsource, rfl⟩

/-- After a comment, a letter that no word has and a text that ends in a backslash. -/
def unclosedText : String := "//é\né\"a\\"

theorem lex_accounts_unclosedText :
    lex unclosedText = [⟨.unreadable "é", ⟨5, 7⟩⟩, ⟨.unreadable "\"a", ⟨7, 9⟩⟩,
      ⟨.unreadable "\\", ⟨9, 10⟩⟩] ∧
    Cut unclosedText 7 ∧ Cut unclosedText 9 ∧
    ∃ before text after : String, unclosedText = before ++ text ++ after ∧
      ⟨7, 9⟩ = Span.mk before.utf8ByteSize (before ++ text).utf8ByteSize ∧
      (Lexeme.unreadable "\"a").At text.toList after.toList := by
  have hlex : lex unclosedText = [⟨.unreadable "é", ⟨5, 7⟩⟩, ⟨.unreadable "\"a", ⟨7, 9⟩⟩,
      ⟨.unreadable "\\", ⟨9, 10⟩⟩] := by decide +kernel
  obtain ⟨_, _, hitems, _⟩ := lex_accounts unclosedText
  refine ⟨hlex, hitems ⟨.unreadable "\"a", ⟨7, 9⟩⟩ ?_⟩
  rw [hlex]
  exact List.mem_cons_of_mem _ List.mem_cons_self

end BlockTemplate.Script
