import BlockTemplate.Proofs.Json.Escape
import BlockTemplate.Proofs.Json.Real

/-! The term that data is written as. It denotes the data unless it nests too deep. -/
namespace BlockTemplate.Json

mutual

/-- The numbers in the data are naturals of 64 bits and finite doubles. -/
def Data.Readable : Data → Prop
  | .integer n => 0 ≤ n ∧ n < UInt64.size
  | .real x => x.isFinite = true
  | .array items => ReadableList items
  | .object fields => ReadableFields fields
  | _ => True

def ReadableList : List Data → Prop
  | [] => True
  | d :: rest => d.Readable ∧ ReadableList rest

def ReadableFields : List (String × Data) → Prop
  | [] => True
  | (_, d) :: rest => d.Readable ∧ ReadableFields rest

end

mutual

/-- The term that the text of data is read as. -/
def Data.term : Data → Term
  | .null => .null
  | .bool b => .bool b
  | .integer n => .number (intText n)
  | .real x => .number (realText x)
  | .text s => .text (escape s.toList)
  | .array items => .array (termsOf items)
  | .object fields => .object (fieldTerms fields)

def termsOf : List Data → List Term
  | [] => []
  | d :: rest => d.term :: termsOf rest

def fieldTerms : List (String × Data) → List (List Char × Term)
  | [] => []
  | (key, d) :: rest => (escape key.toList, d.term) :: fieldTerms rest

end

mutual

/-- How many arrays and objects are around the innermost value. -/
def Data.nesting : Data → Nat
  | .array items => nestingOf items + 1
  | .object fields => fieldNesting fields + 1
  | _ => 0

def nestingOf : List Data → Nat
  | [] => 0
  | d :: rest => max d.nesting (nestingOf rest)

def fieldNesting : List (String × Data) → Nat
  | [] => 0
  | (_, d) :: rest => max d.nesting (fieldNesting rest)

end

mutual

theorem Data.term_toData? (d : Data) (h : d.Readable) (depth : Nat) :
    d.term.toData? depth = if d.nesting ≤ depth then some d else none := by
  match d with
  | .null => simp [Data.term, Term.toData?, Data.nesting]
  | .bool b => simp [Data.term, Term.toData?, Data.nesting]
  | .integer n =>
    obtain ⟨hlow, hhigh⟩ := h
    obtain ⟨n, rfl⟩ := Int.eq_ofNat_of_zero_le hlow
    have hn := intText_toData? n (by omega)
    simpa [Data.term, Term.toData?, Data.nesting] using hn
  | .real x =>
    have hx := realText_toData? h
    simpa [Data.term, Term.toData?, Data.nesting] using hx
  | .text s => simp [Data.term, Term.toData?, Data.nesting, unescape?_escape]
  | .array items =>
    cases depth with
    | zero => simp [Data.term, Term.toData?, Data.nesting]
    | succ depth =>
      have hitems := termsOf_listToData? items h depth
      rw [Data.term, Term.toData?, hitems, Data.nesting]
      by_cases hdepth : nestingOf items ≤ depth <;> simp [hdepth]
  | .object fields =>
    cases depth with
    | zero => simp [Data.term, Term.toData?, Data.nesting]
    | succ depth =>
      have hfields := fieldTerms_fieldsToData? fields h depth
      rw [Data.term, Term.toData?, hfields, Data.nesting]
      by_cases hdepth : fieldNesting fields ≤ depth <;> simp [hdepth]

theorem termsOf_listToData? (items : List Data) (h : ReadableList items) (depth : Nat) :
    listToData? depth (termsOf items) = if nestingOf items ≤ depth then some items else none := by
  match items with
  | [] => simp [termsOf, listToData?, nestingOf]
  | d :: rest =>
    rw [termsOf, listToData?, d.term_toData? h.1, termsOf_listToData? rest h.2, nestingOf]
    by_cases hd : d.nesting ≤ depth <;> by_cases hrest : nestingOf rest ≤ depth <;>
      simp [hd, hrest]

theorem fieldTerms_fieldsToData? (fields : List (String × Data)) (h : ReadableFields fields)
    (depth : Nat) : fieldsToData? depth (fieldTerms fields) =
      if fieldNesting fields ≤ depth then some fields else none := by
  match fields with
  | [] => simp [fieldTerms, fieldsToData?, fieldNesting]
  | (key, d) :: rest =>
    rw [fieldTerms, fieldsToData?, d.term_toData? h.1, fieldTerms_fieldsToData? rest h.2,
      fieldNesting]
    by_cases hd : d.nesting ≤ depth <;> by_cases hrest : fieldNesting rest ≤ depth <;>
      simp [hd, hrest, unescape?_escape]

end

end BlockTemplate.Json
