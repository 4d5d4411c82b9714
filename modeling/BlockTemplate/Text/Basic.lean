/-! Texts: joining, trimming, hexadecimal digits and color codes. -/
namespace BlockTemplate.Text

def joinWith (sep : String) : List String → String
  | [] => ""
  | [s] => s
  | s :: rest => s ++ sep ++ joinWith sep rest

/-- The characters with the Unicode property White_Space. -/
def isBlank (c : Char) : Bool :=
  let n := c.toNat
  (9 ≤ n && n ≤ 13) || n == 0x20 || n == 0x85 || n == 0xA0 || n == 0x1680 ||
    (0x2000 ≤ n && n ≤ 0x200A) || n == 0x2028 || n == 0x2029 || n == 0x202F ||
    n == 0x205F || n == 0x3000

def trimChars (cs : List Char) : List Char :=
  ((cs.dropWhile isBlank).reverse.dropWhile isBlank).reverse

def trim (s : String) : String := String.ofList (trimChars s.toList)

def hexDigit (n : Nat) : Char :=
  if n < 10 then Char.ofNat (48 + n) else Char.ofNat (87 + n)

def hexValue? (c : Char) : Option Nat :=
  if '0' ≤ c && c ≤ '9' then some (c.toNat - 48)
  else if 'a' ≤ c && c ≤ 'f' then some (c.toNat - 87)
  else if 'A' ≤ c && c ≤ 'F' then some (c.toNat - 55)
  else none

def ofHex? (n : Nat) : List Char → Option Nat
  | [] => some n
  | c :: rest => do ofHex? (n * 16 + (← hexValue? c)) rest

def isColorCode (c : Char) : Bool :=
  ('0' ≤ c && c ≤ '9') || ('a' ≤ c && c ≤ 'f') || ('k' ≤ c && c ≤ 'o') || c = 'r'

def translateChars : List Char → List Char
  | [] => []
  | [c] => [c]
  | c :: d :: rest =>
    (if c = '&' && isColorCode d then '§' else c) :: translateChars (d :: rest)

def translateColors (s : String) : String := String.ofList (translateChars s.toList)

end BlockTemplate.Text
