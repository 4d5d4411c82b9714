import BlockTemplate.Proofs.Json.Reading

/-! Layout: the blanks outside quoted texts. Without them the text of data is the compact one, in
every style that adds blanks only. -/
namespace BlockTemplate.Json

/-- Where a character stands: outside quoted texts, inside one, or after a backslash in one. -/
inductive Place where
  | outside | inside | escaped
  deriving DecidableEq

namespace Place

def next : Place → Char → Place
  | outside, c => if c = '"' then inside else outside
  | inside, c => if c = '"' then outside else if c = '\\' then escaped else inside
  | escaped, _ => inside

/-- The place after a text. -/
def after (p : Place) (cs : List Char) : Place := cs.foldl next p

/-- What is left of a text that starts at this place: all but the blanks outside quoted texts. -/
def strip : Place → List Char → List Char
  | _, [] => []
  | p, c :: rest =>
    let kept := (p.next c).strip rest
    if p = outside ∧ isBlank c = true then kept else c :: kept

theorem after_append (p : Place) (cs ds : List Char) :
    p.after (cs ++ ds) = (p.after cs).after ds :=
  List.foldl_append

theorem strip_append (p : Place) (cs ds : List Char) :
    p.strip (cs ++ ds) = p.strip cs ++ (p.after cs).strip ds := by
  induction cs generalizing p with
  | nil => rfl
  | cons c cs ih =>
    have hrest : (p.next c).strip (cs ++ ds) =
        (p.next c).strip cs ++ (p.after (c :: cs)).strip ds := ih (p.next c)
    rw [List.cons_append, strip, strip, hrest]
    by_cases h : p = outside ∧ isBlank c = true <;> simp [h]

end Place

/-- The text without the blanks outside its quoted texts. -/
def stripLayout (s : String) : String := String.ofList (Place.outside.strip s.toList)

/-- Neither a blank nor a quote. -/
def isMark (c : Char) : Bool := !isBlank c && c ≠ '"'

/-- A text that leads from one place to another, with what is left of it. -/
structure Strips (p : Place) (cs left : List Char) (q : Place) : Prop where
  strip : p.strip cs = left
  after : p.after cs = q

namespace Strips
variable {p q r : Place} {cs ds left more : List Char} {c : Char}

theorem nil : Strips p [] [] p := ⟨rfl, rfl⟩

theorem append (h : Strips p cs left q) (hmore : Strips q ds more r) :
    Strips p (cs ++ ds) (left ++ more) r := by
  constructor
  · rw [Place.strip_append, h.strip, h.after, hmore.strip]
  · rw [Place.after_append, h.after, hmore.after]

theorem kept (hc : p = .outside → isBlank c = false) : Strips p [c] [c] (p.next c) := by
  have hkept : ¬ (p = .outside ∧ isBlank c = true) := by
    rintro ⟨hp, hblank⟩
    rw [hc hp] at hblank
    cases hblank
  exact ⟨if_neg hkept, rfl⟩

/-- Characters that are kept and stay at their place. -/
theorem still (h : ∀ c ∈ cs, p.next c = p ∧ (p = .outside → isBlank c = false)) :
    Strips p cs cs p := by
  induction cs with
  | nil => exact nil
  | cons c cs ih =>
    rw [List.forall_mem_cons] at h
    obtain ⟨⟨hnext, hkept⟩, hrest⟩ := h
    have hc := kept hkept
    rw [hnext] at hc
    exact hc.append (ih hrest)

theorem marks (h : cs.all isMark = true) : Strips .outside cs cs .outside := by
  apply still
  intro c hc
  have hmark := List.all_eq_true.1 h c hc
  simp only [isMark, Bool.and_eq_true, Bool.not_eq_true', decide_eq_true_eq] at hmark
  exact ⟨if_neg hmark.2, fun _ => hmark.1⟩

theorem mark (hc : isMark c = true) : Strips .outside [c] [c] .outside :=
  marks (by rw [List.all_cons, hc]; rfl)

theorem blanks (h : ∀ c ∈ cs, isBlank c = true) : Strips .outside cs [] .outside := by
  induction cs with
  | nil => exact nil
  | cons c cs ih =>
    rw [List.forall_mem_cons] at h
    have hquote : c ≠ '"' := by
      rintro rfl
      cases h.1
    have hblank : Strips .outside [c] [] .outside := ⟨if_pos ⟨rfl, h.1⟩, if_neg hquote⟩
    exact hblank.append (ih h.2)

end Strips

/-- Inside a quoted text blanks are kept as well. -/
theorem strips_plain {cs : List Char} (h : ∀ c ∈ cs, c ≠ '"' ∧ c ≠ '\\') :
    Strips .inside cs cs .inside := by
  apply Strips.still
  intro c hc
  obtain ⟨hquote, hback⟩ := h c hc
  exact ⟨by rw [Place.next, if_neg hquote, if_neg hback], nofun⟩

/-- The character after a backslash closes nothing. -/
theorem strips_pair (e : Char) : Strips .inside ['\\', e] ['\\', e] .inside :=
  (Strips.kept nofun : Strips .inside ['\\'] ['\\'] .escaped).append (.kept nofun)

theorem hexDigit_plain : ∀ n < 16, Text.hexDigit n ≠ '"' ∧ Text.hexDigit n ≠ '\\' := by decide

theorem strips_escapeChar (c : Char) :
    Strips .inside (escapeChar c) (escapeChar c) .inside := by
  obtain ⟨e, heq, _, _⟩ | ⟨hlt, heq⟩ | ⟨_, hquote, hback, heq⟩ := escapeChar_cases c
  · rw [heq]
    exact strips_pair e
  · have hhigh := hexDigit_plain (c.toNat / 16) (by omega)
    have hlow := hexDigit_plain (c.toNat % 16) (by omega)
    rw [heq]
    exact (strips_pair 'u').append (strips_plain (by simp [hhigh, hlow]))
  · rw [heq]
    exact strips_plain (List.forall_mem_singleton.2 ⟨hquote, hback⟩)

theorem strips_escape (cs : List Char) : Strips .inside (escape cs) (escape cs) .inside := by
  induction cs with
  | nil => exact .nil
  | cons c cs ih => exact (strips_escapeChar c).append ih

theorem strips_textChars (s : String) :
    Strips .outside (textChars s) (textChars s) .outside :=
  (Strips.kept fun _ => rfl : Strips .outside ['"'] ['"'] .inside).append
    ((strips_escape s.toList).append (.kept nofun))

theorem strips_digits {cs : List Char} (h : ∀ c ∈ cs, Decimal.isDigit c = true) :
    Strips .outside cs cs .outside := by
  refine .marks (List.all_eq_true.2 fun c hc => ?_)
  have hdigit : c = '-' ∨ Decimal.isDigit c := .inr (h c hc)
  simp [isMark, number_head_not_blank hdigit, number_head_ne hdigit (x := '"') rfl]

theorem NumberText.WellFormed.strips {t : NumberText} (h : t.WellFormed) :
    Strips .outside t.chars t.chars .outside := by
  have hsign : Strips .outside (if t.negative then ['-'] else [])
      (if t.negative then ['-'] else []) .outside := by
    cases t.negative with
    | true => exact .mark rfl
    | false => exact .nil
  have hfraction : Strips .outside (fractionChars t.fraction) (fractionChars t.fraction)
      .outside := by
    cases hcs : t.fraction with
    | nil => exact .nil
    | cons c cs => exact (Strips.mark rfl).append (hcs ▸ strips_digits h.fraction)
  have hexponent : Strips .outside (exponentChars t.exponent) (exponentChars t.exponent)
      .outside := by
    cases hp : t.exponent with
    | none => exact .nil
    | some p =>
      obtain ⟨negative, digits⟩ := p
      have hmark : Strips .outside [if negative then '-' else '+'] [if negative then '-' else '+']
          .outside := .mark (by cases negative <;> rfl)
      exact (Strips.mark rfl).append (hmark.append (strips_digits (h.exponent _ hp).2))
  exact ((hsign.append (strips_digits h.whole)).append hfraction).append hexponent

theorem strips_intChars (n : Int) : Strips .outside (intChars n) (intChars n) .outside := by
  rw [← intText_chars]
  exact (intText_wellFormed n).strips

theorem strips_realChars (x : Float) : Strips .outside (realChars x) (realChars x) .outside := by
  by_cases h : x.isFinite = true
  · rw [← realText_chars h]
    exact (realText_wellFormed h).strips
  · rw [realChars, if_neg h]
    exact .marks rfl

section Layout
variable {style : Style} (hstyle : style.Blank)
include hstyle

theorem strips_lineBreak (depth outer : Nat) :
    Strips .outside (style.lineBreak depth) (compact.lineBreak outer) .outside :=
  .blanks (hstyle.lineBreak depth)

/-- A key on its line, with the colon after it. -/
theorem strips_key (depth outer : Nat) (key : String) :
    Strips .outside (style.lineBreak depth ++ textChars key ++ ':' :: style.afterColon)
      (compact.lineBreak outer ++ textChars key ++ ':' :: compact.afterColon) .outside :=
  ((strips_lineBreak hstyle depth outer).append (strips_textChars key)).append
    ((Strips.mark rfl).append (.blanks hstyle.afterColon))

mutual

/-- Of the text of data the compact one is left, whatever the blanks of the style and however deep
the data stands. -/
theorem Data.strips_chars (depth outer : Nat) (d : Data) :
    Strips .outside (d.chars style depth) (d.chars compact outer) .outside := by
  match d with
  | .null | .bool true | .bool false | .array [] | .object [] =>
    simp only [Data.chars]
    exact .marks rfl
  | .integer n => exact strips_intChars n
  | .real x => exact strips_realChars x
  | .text s => exact strips_textChars s
  | .array (d :: rest) =>
    have hopen := strips_lineBreak hstyle (depth + 1) (outer + 1)
    have hclose := strips_lineBreak hstyle depth outer
    have hfirst := d.strips_chars (depth + 1) (outer + 1)
    have hrest := strips_listChars (depth + 1) (outer + 1) rest
    simp only [Data.chars]
    exact (Strips.mark rfl).append
      ((((hopen.append hfirst).append hrest).append hclose).append (.mark rfl))
  | .object ((key, d) :: rest) =>
    have hkey := strips_key hstyle (depth + 1) (outer + 1) key
    have hclose := strips_lineBreak hstyle depth outer
    have hfirst := d.strips_chars (depth + 1) (outer + 1)
    have hrest := strips_fieldsChars (depth + 1) (outer + 1) rest
    simp only [Data.chars]
    exact (Strips.mark rfl).append
      ((((hkey.append hfirst).append hrest).append hclose).append (.mark rfl))

theorem strips_listChars (depth outer : Nat) (items : List Data) :
    Strips .outside (listChars style depth items) (listChars compact outer items) .outside := by
  match items with
  | [] => exact .nil
  | d :: rest =>
    have hbreak := strips_lineBreak hstyle depth outer
    have hfirst := d.strips_chars depth outer
    simp only [listChars]
    exact (Strips.mark rfl).append
      ((hbreak.append hfirst).append (strips_listChars depth outer rest))

theorem strips_fieldsChars (depth outer : Nat) (fields : List (String × Data)) :
    Strips .outside (fieldsChars style depth fields) (fieldsChars compact outer fields)
      .outside := by
  match fields with
  | [] => exact .nil
  | (key, d) :: rest =>
    have hkey := strips_key hstyle depth outer key
    have hfirst := d.strips_chars depth outer
    simp only [fieldsChars]
    exact (Strips.mark rfl).append
      ((hkey.append hfirst).append (strips_fieldsChars depth outer rest))

end

/-- Without its layout the text of data is the compact one. -/
theorem stripLayout_render (d : Data) : stripLayout (d.render style) = d.render compact := by
  rw [stripLayout, Data.render, String.toList_ofList, (d.strips_chars hstyle 0 0).strip]
  rfl

end Layout

example : stripLayout "[\n  1,\n  \"a \\\" b\"\n]" = "[1,\"a \\\" b\"]" := by decide +kernel

end BlockTemplate.Json
