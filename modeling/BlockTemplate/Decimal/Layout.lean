import BlockTemplate.Decimal.Shortest

/-! Written forms of doubles: the plain one of messages and listings, and the one of documents. -/
namespace BlockTemplate.Decimal

def zeros (n : Nat) : List Char := List.replicate n '0'

def positional (d : Digits) : List Char :=
  if d.power < 0 then ['0', '.'] ++ zeros ((-d.power).toNat - 1) ++ d.digits
  else
    let whole := d.power.toNat + 1
    if d.digits.length ≤ whole then d.digits ++ zeros (whole - d.digits.length)
    else d.digits.take whole ++ ['.'] ++ d.digits.drop whole

def scientific (d : Digits) : List Char :=
  let point := if d.digits.length ≤ 1 then [] else ['.']
  let sign := if d.power < 0 then '-' else '+'
  d.digits.take 1 ++ point ++ d.digits.drop 1 ++ ['e', sign] ++ Nat.toDigits 10 d.power.natAbs

def signChars (b : Binary) : List Char := if b.negative then ['-'] else []

/-- The plain form: always positional, whole numbers without a fraction. -/
def plain (x : Float) : String :=
  if x.isNaN then "NaN"
  else if x.isInf then if x < 0.0 then "-inf" else "inf"
  else
    let b := binary x
    if b.mantissa = 0 then String.ofList (signChars b ++ ['0'])
    else String.ofList (signChars b ++ positional (shortest .up b))

def unsignedZero (x : Float) : String := if x == 0.0 then "0" else plain x

/-- The form of documents: always with a fraction or an exponent, positional from `1e-5` up to
below `1e16`. -/
def documentChars (x : Float) : List Char :=
  let b := binary x
  if b.mantissa = 0 then signChars b ++ ['0', '.', '0']
  else
    let d := shortest .even b
    if -5 ≤ d.power && d.power < 16 then
      let fraction := if (d.digits.length : Int) ≤ d.power + 1 then ['.', '0'] else []
      signChars b ++ positional d ++ fraction
    else signChars b ++ scientific d

end BlockTemplate.Decimal
