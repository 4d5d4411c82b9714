/-! Decimal literals and the doubles they denote, and the exact value of a double. -/
namespace BlockTemplate.Decimal

def isDigit (c : Char) : Bool := '0' ≤ c && c ≤ '9'

def digitValue (c : Char) : Nat := c.toNat - '0'.toNat

def ofDigits (cs : List Char) : Nat := cs.foldl (fun n c => 10 * n + digitValue c) 0

/-- The double nearest to `m * 10 ^ e`; far outside the range of doubles nothing is computed. -/
def scaled (m : Nat) (e : Int) : Float :=
  let size : Int := (Nat.toDigits 10 m).length + e
  if m = 0 then 0.0
  else if 400 < size then 1.0 / 0.0
  else if size < -400 then 0.0
  else Float.ofScientific m (e < 0) e.natAbs

def toFloat (negative : Bool) (whole fraction : List Char) (exponent : Int) : Float :=
  let x := scaled (ofDigits (whole ++ fraction)) (exponent - fraction.length)
  if negative then -x else x

/-- Sign, and mantissa times a power of two: the value of a finite double. -/
structure Binary where
  negative : Bool
  mantissa : Nat
  exponent : Int

def leadingBit : Nat := 0x10000000000000

def binary (x : Float) : Binary :=
  let bits := x.toBits.toNat
  let fraction : Nat := bits % leadingBit
  let power : Nat := bits / leadingBit % 2048
  { negative := bits / 0x8000000000000000 == 1
    mantissa := if power = 0 then fraction else fraction + leadingBit
    exponent := (if power = 0 then 1 else (power : Int)) - 1075 }

def wholeAbs? (x : Float) : Option Nat :=
  if !x.isFinite then none
  else
    let b := binary x
    if 0 ≤ b.exponent then some (b.mantissa * Nat.pow 2 b.exponent.toNat)
    else
      let scale := Nat.pow 2 (-b.exponent).toNat
      if b.mantissa % scale = 0 then some (b.mantissa / scale) else none

end BlockTemplate.Decimal
