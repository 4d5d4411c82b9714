import BlockTemplate.Decimal.Layout
import BlockTemplate.Json.Basic

/-! Data written as text. -/
namespace BlockTemplate.Json

structure Style where
  lineBreak : Nat → List Char
  afterColon : List Char

def compact : Style where
  lineBreak _ := []
  afterColon := []

def pretty : Style where
  lineBreak depth := '\n' :: List.replicate (2 * depth) ' '
  afterColon := [' ']

def textChars (s : String) : List Char := '"' :: (escape s.toList ++ ['"'])

/-- A double in the form of documents; what is not finite has no number to stand for it. -/
def realChars (x : Float) : List Char :=
  if x.isFinite then Decimal.documentChars x else ['n', 'u', 'l', 'l']

def intChars (n : Int) : List Char :=
  if n < 0 then '-' :: Nat.toDigits 10 n.natAbs else Nat.toDigits 10 n.natAbs

mutual

def Data.chars (style : Style) (depth : Nat) : Data → List Char
  | .null => ['n', 'u', 'l', 'l']
  | .bool true => ['t', 'r', 'u', 'e']
  | .bool false => ['f', 'a', 'l', 's', 'e']
  | .integer n => intChars n
  | .real x => realChars x
  | .text s => textChars s
  | .array [] => ['[', ']']
  | .array (d :: rest) =>
    '[' :: (style.lineBreak (depth + 1) ++ d.chars style (depth + 1) ++
      listChars style (depth + 1) rest ++ style.lineBreak depth ++ [']'])
  | .object [] => ['\x7b', '\x7d']
  | .object ((key, d) :: rest) =>
    '\x7b' :: (style.lineBreak (depth + 1) ++ textChars key ++ ':' :: style.afterColon ++
      d.chars style (depth + 1) ++ fieldsChars style (depth + 1) rest ++
      style.lineBreak depth ++ ['\x7d'])

def listChars (style : Style) (depth : Nat) : List Data → List Char
  | [] => []
  | d :: rest =>
    ',' :: (style.lineBreak depth ++ d.chars style depth ++ listChars style depth rest)

def fieldsChars (style : Style) (depth : Nat) : List (String × Data) → List Char
  | [] => []
  | (key, d) :: rest =>
    ',' :: (style.lineBreak depth ++ textChars key ++ ':' :: style.afterColon ++
      d.chars style depth ++ fieldsChars style depth rest)

end

def Data.render (style : Style) (d : Data) : String := String.ofList (d.chars style 0)

end BlockTemplate.Json
