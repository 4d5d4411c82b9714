import BlockTemplate.Decimal.Basic

/-! The fewest decimal digits that read back as a given double, and of those the nearest.

A double is `mantissa * 2 ^ exponent`, and a decimal reads back as it exactly when it lies in the
interval half way to its two neighbours. For 1, 2, … 17 digits the two points of that decimal grid
around the value are tried against the interval. -/
namespace BlockTemplate.Decimal

inductive Tie where
  | up | even

/-- Digits `d₀ d₁ …` and a power: the value `d₀.d₁… * 10 ^ power`. -/
structure Digits where
  digits : List Char
  power : Int

def fraction (a : Nat) (p q : Int) : Nat × Nat :=
  (a * Nat.pow 2 p.toNat * Nat.pow 10 q.toNat, Nat.pow 2 (-p).toNat * Nat.pow 10 (-q).toNat)

/-- The power of ten of the leading digit of `num / den`, for a positive fraction. -/
def leadingPower (num den : Nat) : Int :=
  if den ≤ num then ((Nat.toDigits 10 (num / den)).length : Int) - 1
  else
    let size := (Nat.toDigits 10 (den / num)).length
    if den ≤ num * Nat.pow 10 (size - 1) then -((size : Int) - 1) else -(size : Int)

/-- The interval of values that read back as the double, in quarters of the mantissa's unit. -/
structure Interval where
  low : Nat
  value : Nat
  high : Nat
  power : Int
  closed : Bool

def interval (b : Binary) : Interval :=
  { low := if b.mantissa = leadingBit && -1074 < b.exponent then 4 * b.mantissa - 1
      else 4 * b.mantissa - 2
    value := 4 * b.mantissa
    high := 4 * b.mantissa + 2
    power := b.exponent - 2
    closed := b.mantissa % 2 = 0 }

def Interval.holds (i : Interval) (d : Nat) (s : Int) : Bool :=
  let (lowNum, lowDen) := fraction i.low i.power (-s)
  let (highNum, highDen) := fraction i.high i.power (-s)
  if i.closed then lowNum ≤ d * lowDen && d * highDen ≤ highNum
  else lowNum < d * lowDen && d * highDen < highNum

def Interval.nearest? (i : Interval) (tie : Tie) (s : Int) : Option Nat :=
  let (num, den) := fraction i.value i.power (-s)
  let below := num / den
  let twice := 2 * (num % den)
  let upper : Bool :=
    match tie with
    | .up => den ≤ twice
    | .even => den < twice || (den = twice && below % 2 = 1)
  match i.holds below s, i.holds (below + 1) s with
  | true, true => some (if upper then below + 1 else below)
  | true, false => some below
  | false, true => some (below + 1)
  | false, false => none

def Interval.search (i : Interval) (tie : Tie) (lead : Int) : Nat → Nat → Nat × Int
  | 0, n => (0, lead - n)
  | tries + 1, n =>
    let s := lead - n + 1
    match i.nearest? tie s with
    | some d => (d, s)
    | none => i.search tie lead tries (n + 1)

def stripZeros (cs : List Char) : List Char := (cs.reverse.dropWhile (· == '0')).reverse

def shortest (tie : Tie) (b : Binary) : Digits :=
  let i := interval b
  let (num, den) := fraction i.value i.power 0
  let (d, s) := i.search tie (leadingPower num den) 17 1
  let digits := Nat.toDigits 10 d
  { digits := stripZeros digits, power := s + (digits.length - 1 : Nat) }

end BlockTemplate.Decimal
