import BlockTemplate.Script.Parser

/-! Where the lexemes of a source stand: one after the other, and on whole characters. -/
namespace BlockTemplate.Script

/-- An offset at which the source can be cut without splitting a character. -/
def Cut (source : String) (n : Nat) : Prop := (String.Pos.Raw.mk n).IsValid source

/-- A range whose ends are in order and can be cut at. -/
structure Span.Sound (cut : Nat → Prop) (s : Span) : Prop where
  ordered : s.start ≤ s.stop
  start : cut s.start
  stop : cut s.stop

/-- Sound ranges from an offset on, none of which reaches into the next. -/
def Ordered {α : Type} (cut : Nat → Prop) : Nat → List (Located α) → Prop
  | _, [] => True
  | start, x :: rest => start ≤ x.span.start ∧ x.span.Sound cut ∧ Ordered cut x.span.stop rest

/-- Where the last of them ends. -/
def lastStopOf {α : Type} : Nat → List (Located α) → Nat
  | start, [] => start
  | _, x :: rest => lastStopOf x.span.stop rest

section Ordered
variable {α : Type} {cut : Nat → Prop} {start : Nat} {xs : List (Located α)}

theorem Ordered.earlier {earlier : Nat} (h : Ordered cut start xs) (hle : earlier ≤ start) :
    Ordered cut earlier xs := by
  cases xs with
  | nil => trivial
  | cons x rest => exact ⟨Nat.le_trans hle h.1, h.2⟩

theorem Ordered.cut_lastStopOf (h : Ordered cut start xs) (hstart : cut start) :
    cut (lastStopOf start xs) := by
  induction xs generalizing start with
  | nil => exact hstart
  | cons x rest ih => exact ih h.2.2 h.2.1.stop

end Ordered

theorem byteLength_append (cs ds : List Char) :
    byteLength (cs ++ ds) = byteLength cs + byteLength ds := by
  induction cs with
  | nil => simp [byteLength]
  | cons c cs ih => simp [byteLength, ih, Nat.add_assoc]

theorem byteLength_eq (cs : List Char) : byteLength cs = (String.ofList cs).utf8ByteSize := by
  induction cs with
  | nil => rfl
  | cons c cs ih => simp [byteLength, ih, String.ofList_cons]

/-- Every prefix of the source ends where it can be cut. -/
theorem cut_take (source : String) (n : Nat) : Cut source (byteLength (source.toList.take n)) := by
  rw [byteLength_eq]
  exact String.Pos.Raw.isValid_iff_exists_take_toList.2 ⟨n, rfl⟩

theorem cut_length (source : String) : Cut source source.utf8ByteSize := by
  have h := cut_take source source.toList.length
  rwa [List.take_length, byteLength_eq, String.ofList_toList] at h

theorem lexChars_ordered {cut : Nat → Prop} (start : Nat) (cs : List Char)
    (hcut : ∀ k, cut (start + byteLength (cs.take k))) : Ordered cut start (lexChars start cs) := by
  match cs with
  | [] => rw [lexChars]; trivial
  | c :: rest =>
    rw [lexChars]
    cases hpiece : readPiece c rest with
    | mk piece n =>
      have htext : (c :: rest).take (n + 1) = c :: rest.take n := rfl
      have hspan : Span.Sound cut ⟨start, start + byteLength (c :: rest.take n)⟩ :=
        ⟨by simp, by simpa [byteLength] using hcut 0, by simpa [htext] using hcut (n + 1)⟩
      have hothers : Ordered cut (start + byteLength (c :: rest.take n))
          (lexChars (start + byteLength (c :: rest.take n)) (rest.drop n)) := by
        apply lexChars_ordered
        intro k
        have hk := hcut (n + 1 + k)
        rw [List.take_add, htext, byteLength_append] at hk
        simpa [Nat.add_assoc] using hk
      cases piece with
      | blank => exact hothers.earlier (by simp)
      | token t => exact ⟨Nat.le_refl _, hspan, hothers⟩
      | unreadable => exact ⟨Nat.le_refl _, hspan, hothers⟩
termination_by cs.length
decreasing_by simp only [List.length_cons, List.length_drop]; omega

theorem lex_ordered (source : String) : Ordered (Cut source) 0 (lex source) := by
  apply lexChars_ordered
  intro k
  simpa using cut_take source k

theorem tokensOf_ordered {cut : Nat → Prop} {start : Nat} {xs : List (Located Lexeme)}
    (h : Ordered cut start xs) : Ordered cut start (tokensOf xs) := by
  induction xs generalizing start with
  | nil => trivial
  | cons x rest ih =>
    obtain ⟨item, span⟩ := x
    obtain ⟨hle, hspan, hrest⟩ := h
    cases item with
    | token t => exact ⟨hle, hspan, ih hrest⟩
    | unreadable text => exact (ih hrest).earlier (Nat.le_trans hle hspan.ordered)

theorem unreadableOf_sound {cut : Nat → Prop} {start : Nat} {xs : List (Located Lexeme)}
    (h : Ordered cut start xs) : ∀ e ∈ unreadableOf xs,
      ∃ text span, e = .unread (.unreadable text) span ∧ span.Sound cut := by
  induction xs generalizing start with
  | nil => simp [unreadableOf]
  | cons x rest ih =>
    obtain ⟨item, span⟩ := x
    obtain ⟨_, hspan, hrest⟩ := h
    cases item with
    | token t => exact ih hrest
    | unreadable text =>
      intro e he
      cases he with
      | head => exact ⟨text, span, rfl, hspan⟩
      | tail _ he => exact ih hrest e he

/-- Where the last token of a source ends, or the source itself if it has none. -/
def tokensEnd (source : String) : Nat :=
  let tokens := tokensOf (lex source)
  if tokens.isEmpty then source.utf8ByteSize else lastStopOf 0 tokens

theorem cut_tokensEnd (source : String) : Cut source (tokensEnd source) := by
  have hordered := tokensOf_ordered (lex_ordered source)
  rw [tokensEnd]
  cases htokens : tokensOf (lex source) with
  | nil => exact cut_length source
  | cons t rest =>
    rw [htokens] at hordered
    exact hordered.2.2.cut_lastStopOf hordered.2.1.stop

end BlockTemplate.Script
