import BlockTemplate.Code.Bits

/-! Canonical prefix codes: codes are numbered by length, then by symbol. -/
namespace BlockTemplate.Code

/-- The symbols with codes of length 1, 2, 3 and so on, each in order. -/
structure PrefixCode where
  levels : List (Array Nat)

namespace PrefixCode

def maxLength : Nat := 15

def symbolsOfLength (length : Nat) : Nat → List Nat → List Nat
  | _, [] => []
  | symbol, l :: rest =>
    if l = length then symbol :: symbolsOfLength length (symbol + 1) rest
    else symbolsOfLength length (symbol + 1) rest

/-- The code in which symbol number `i` has the `i`-th length; length zero stands for no code. -/
def ofLengths (lengths : List Nat) : PrefixCode where
  levels := (List.range maxLength).map fun l => (symbolsOfLength (l + 1) 0 lengths).toArray

/-- How many of the `2 ^ 15` words of full length start with a code. -/
def covered (lengths : List Nat) : Nat :=
  lengths.foldl (fun n l => if l = 0 then n else n + Nat.pow 2 (maxLength - l)) 0

def isComplete (lengths : List Nat) : Bool := covered lengths = Nat.pow 2 maxLength

def isTrivial (lengths : List Nat) : Bool :=
  match lengths.filter (· ≠ 0) with
  | [] | [1] => true
  | _ => false

def symbolFrom? : List (Array Nat) → Nat → Nat → BitStream → Option (Nat × BitStream)
  | [], _, _, _ => none
  | symbols :: levels, word, first, s => do
    let (b, s) ← s.bit?
    let word := 2 * word + b.toNat
    match symbols[word - first]? with
    | some symbol => return (symbol, s)
    | none => symbolFrom? levels word (2 * (first + symbols.size)) s

def symbol? (c : PrefixCode) (s : BitStream) : Option (Nat × BitStream) :=
  symbolFrom? c.levels 0 0 s

end PrefixCode
end BlockTemplate.Code
