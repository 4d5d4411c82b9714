import BlockTemplate.Json.Parser
import BlockTemplate.Json.Printer
import BlockTemplate.Proofs.Decimal.Digits

/-! Numbers as texts: a well-formed number is read back as it is written, wherever nothing follows
that could belong to it. -/
namespace BlockTemplate.Json
open Decimal (isDigit)

def fractionChars : List Char → List Char
  | [] => []
  | c :: rest => '.' :: c :: rest

/-- An exponent has its sign written. -/
def exponentChars : Option (Bool × List Char) → List Char
  | none => []
  | some (negative, digits) => 'e' :: (if negative then '-' else '+') :: digits

namespace NumberText

/-- The text of a number. -/
def chars (n : NumberText) : List Char :=
  (if n.negative then ['-'] else []) ++ n.whole ++ fractionChars n.fraction ++
    exponentChars n.exponent

/-- Digits where digits have to be, and no zero before other digits. -/
structure WellFormed (n : NumberText) : Prop where
  whole : ∀ c ∈ n.whole, isDigit c = true
  someWhole : n.whole ≠ []
  noZero : n.whole = ['0'] ∨ n.whole.head? ≠ some '0'
  fraction : ∀ c ∈ n.fraction, isDigit c = true
  exponent : ∀ p ∈ n.exponent, p.2 ≠ [] ∧ ∀ c ∈ p.2, isDigit c = true

end NumberText

/-- What follows does not go on with a number. -/
def endsNumber : List Char → Bool
  | [] => true
  | c :: _ => !(isDigit c || c == '.' || c == 'e' || c == 'E')

theorem takeWhile_digits {digits rest : List Char} (hd : ∀ c ∈ digits, isDigit c = true)
    (hr : ∀ c ∈ rest.head?, isDigit c = false) :
    (digits ++ rest).takeWhile isDigit = digits ∧ (digits ++ rest).dropWhile isDigit = rest := by
  rw [List.takeWhile_append_of_pos hd, List.dropWhile_append_of_pos hd]
  cases rest with
  | nil => simp
  | cons c rest => simp [hr c rfl]

theorem readDigits?_append {digits rest : List Char} (hne : digits ≠ [])
    (hd : ∀ c ∈ digits, isDigit c = true) (hr : ∀ c ∈ rest.head?, isDigit c = false) :
    readDigits? (digits ++ rest) = some (digits, rest) := by
  obtain ⟨htake, hdrop⟩ := takeWhile_digits hd hr
  cases digits with
  | nil => exact absurd rfl hne
  | cons c cs => simp only [readDigits?, htake, hdrop]

theorem endsNumber_head {rest : List Char} (h : endsNumber rest = true) :
    ∀ c ∈ rest.head?, isDigit c = false ∧ c ≠ '.' ∧ c ≠ 'e' ∧ c ≠ 'E' := by
  cases rest with
  | nil => simp
  | cons c rest => simpa [endsNumber, and_assoc] using h

theorem readWhole?_append {whole rest : List Char} (hne : whole ≠ [])
    (hd : ∀ c ∈ whole, isDigit c = true) (hzero : whole = ['0'] ∨ whole.head? ≠ some '0')
    (hr : ∀ c ∈ rest.head?, isDigit c = false) :
    readWhole? (whole ++ rest) = some (whole, rest) := by
  cases whole with
  | nil => exact absurd rfl hne
  | cons c cs =>
    by_cases hc : c = '0'
    · subst hc
      have hcs : cs = [] := by simpa using hzero
      subst hcs
      rfl
    · rw [List.cons_append, readWhole?, ← List.cons_append]
      · exact readDigits?_append hne hd hr
      · simp [hc]

theorem readFraction?_append {fraction rest : List Char} (hd : ∀ c ∈ fraction, isDigit c = true)
    (hr : ∀ c ∈ rest.head?, isDigit c = false ∧ c ≠ '.') :
    readFraction? (fractionChars fraction ++ rest) = some (fraction, rest) := by
  cases fraction with
  | nil =>
    rw [fractionChars, List.nil_append, readFraction?]
    intro tail htail
    exact (hr '.' (by simp [htail])).2 rfl
  | cons c cs =>
    rw [fractionChars, List.cons_append, readFraction?]
    exact readDigits?_append (by simp) hd fun x hx => (hr x hx).1

theorem readSign_written (negative : Bool) (rest : List Char) :
    readSign ((if negative then '-' else '+') :: rest) = (negative, rest) := by
  cases negative <;> rfl

theorem readExponent?_append {exponent : Option (Bool × List Char)} {rest : List Char}
    (he : ∀ p ∈ exponent, p.2 ≠ [] ∧ ∀ c ∈ p.2, isDigit c = true) (hr : endsNumber rest = true) :
    readExponent? (exponentChars exponent ++ rest) = some (exponent, rest) := by
  have hhead := endsNumber_head hr
  cases exponent with
  | none =>
    cases rest with
    | nil => rfl
    | cons c rest =>
      obtain ⟨_, _, hlower, hupper⟩ := hhead c rfl
      simp [exponentChars, readExponent?, hlower, hupper]
  | some p =>
    obtain ⟨hne, hd⟩ := he p rfl
    simp only [exponentChars, List.cons_append, readExponent?, decide_true, Bool.true_or, if_true,
      readSign_written]
    rw [readDigits?_append hne hd fun c hc => (hhead c hc).1]
    rfl

theorem exponentChars_head (exponent : Option (Bool × List Char)) {rest : List Char}
    (hr : endsNumber rest = true) :
    ∀ c ∈ (exponentChars exponent ++ rest).head?, isDigit c = false ∧ c ≠ '.' := by
  have hhead := endsNumber_head hr
  cases exponent with
  | none => exact fun c hc => ⟨(hhead c hc).1, (hhead c hc).2.1⟩
  | some p => simp [exponentChars, isDigit]

theorem fractionChars_head (fraction : List Char) {rest : List Char}
    (hr : ∀ c ∈ rest.head?, isDigit c = false) :
    ∀ c ∈ (fractionChars fraction ++ rest).head?, isDigit c = false := by
  cases fraction with
  | nil => exact hr
  | cons c cs => simp [fractionChars, isDigit]

theorem readUnsigned?_chars {n : NumberText} (h : n.WellFormed) {rest : List Char}
    (hr : endsNumber rest = true) :
    readUnsigned? n.negative (n.whole ++ (fractionChars n.fraction ++
      (exponentChars n.exponent ++ rest))) = some (.number n, rest) := by
  have hexponent := exponentChars_head n.exponent hr
  have hfraction := fractionChars_head n.fraction fun c hc => (hexponent c hc).1
  simp only [readUnsigned?, readWhole?_append h.someWhole h.whole h.noZero hfraction,
    Option.bind_eq_bind, Option.bind_some, readFraction?_append h.fraction hexponent,
    readExponent?_append h.exponent hr]
  rfl

theorem readNumber?_chars {n : NumberText} (h : n.WellFormed) {rest : List Char}
    (hr : endsNumber rest = true) : readNumber? (n.chars ++ rest) = some (.number n, rest) := by
  have hunsigned := readUnsigned?_chars h hr
  rw [NumberText.chars, List.append_assoc, List.append_assoc, List.append_assoc]
  cases hneg : n.negative with
  | true =>
    rw [hneg] at hunsigned
    exact hunsigned
  | false =>
    rw [hneg] at hunsigned
    simp only [Bool.false_eq_true, if_false, List.nil_append]
    rw [readNumber?]
    · exact hunsigned
    · intro tail htail
      cases hw : n.whole with
      | nil => exact h.someWhole hw
      | cons c cs =>
        rw [hw, List.cons_append, List.cons.injEq] at htail
        have hc := h.whole c (by simp [hw])
        rw [htail.1] at hc
        exact absurd hc (by decide)

/-- The text of an integer. -/
def intText (n : Int) : NumberText := { negative := n < 0, whole := Nat.toDigits 10 n.natAbs }

theorem intText_chars (n : Int) : (intText n).chars = intChars n := by
  by_cases h : n < 0 <;> simp [NumberText.chars, fractionChars, exponentChars, intText, intChars, h]

theorem intText_wellFormed (n : Int) : (intText n).WellFormed where
  whole _ hc := Decimal.isDigit_of_mem_toDigits hc
  someWhole := Nat.toDigits_ne_nil
  noZero := by
    by_cases h : n.natAbs = 0
    · exact .inl (by simp [intText, h])
    · exact .inr (Decimal.toDigits_head n.natAbs (by omega))
  fraction := by simp [intText]
  exponent := by simp [intText]

/-- Natural numbers of 64 bits are read back as integers. -/
theorem intText_toData? (n : Nat) (h : n < UInt64.size) :
    (intText n).toData? = some (.integer n) := by
  have hneg : ¬ ((n : Int) < 0) := by omega
  simp [NumberText.toData?, NumberText.toInt?, intText, Decimal.ofDigits_toDigits, h, hneg]

end BlockTemplate.Json
