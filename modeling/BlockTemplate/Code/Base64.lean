/-! Bytes as texts of 64 characters, four for three bytes. The last group is filled up with equals
signs. -/
namespace BlockTemplate.Code.Base64

def digit (n : Nat) : Char :=
  if n < 26 then Char.ofNat (65 + n)
  else if n < 52 then Char.ofNat (71 + n)
  else if n < 62 then Char.ofNat (n - 4)
  else if n = 62 then '+'
  else '/'

def digitValue? (c : Char) : Option Nat :=
  if 'A' ≤ c && c ≤ 'Z' then some (c.toNat - 65)
  else if 'a' ≤ c && c ≤ 'z' then some (c.toNat - 71)
  else if '0' ≤ c && c ≤ '9' then some (c.toNat + 4)
  else if c = '+' then some 62
  else if c = '/' then some 63
  else none

def encode : List UInt8 → List Char
  | [] => []
  | [a] => [digit (a.toNat / 4), digit (a.toNat % 4 * 16), '=', '=']
  | [a, b] =>
    [digit (a.toNat / 4), digit (a.toNat % 4 * 16 + b.toNat / 16), digit (b.toNat % 16 * 4), '=']
  | a :: b :: c :: rest =>
    digit (a.toNat / 4) :: digit (a.toNat % 4 * 16 + b.toNat / 16) ::
      digit (b.toNat % 16 * 4 + c.toNat / 64) :: digit (c.toNat % 64) :: encode rest

/-- The bytes of a last group. Bits that no byte uses are zero. -/
def decodeLast? (a b c d : Char) : Option (List UInt8) := do
  let a ← digitValue? a
  let b ← digitValue? b
  if c = '=' then
    if d = '=' ∧ b % 16 = 0 then return [UInt8.ofNat (a * 4 + b / 16)]
    none
  let c ← digitValue? c
  if d = '=' then
    if c % 4 = 0 then return [UInt8.ofNat (a * 4 + b / 16), UInt8.ofNat (b % 16 * 16 + c / 4)]
    none
  let d ← digitValue? d
  return [UInt8.ofNat (a * 4 + b / 16), UInt8.ofNat (b % 16 * 16 + c / 4),
    UInt8.ofNat (c % 4 * 64 + d)]

def decodeGroup? (a b c d : Char) : Option (UInt8 × UInt8 × UInt8) := do
  let a ← digitValue? a
  let b ← digitValue? b
  let c ← digitValue? c
  let d ← digitValue? d
  return (UInt8.ofNat (a * 4 + b / 16), UInt8.ofNat (b % 16 * 16 + c / 4),
    UInt8.ofNat (c % 4 * 64 + d))

def decode? : List Char → Option (List UInt8)
  | [] => some []
  | [a, b, c, d] => decodeLast? a b c d
  | a :: b :: c :: d :: rest =>
    match decodeGroup? a b c d with
    | some (x, y, z) => (decode? rest).map fun bytes => x :: y :: z :: bytes
    | none => none
  | _ => none

end BlockTemplate.Code.Base64
