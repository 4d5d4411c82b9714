/-! Bytes read bit by bit, lowest bit first, and numbers as bytes, lowest byte first. -/
namespace BlockTemplate.Code

/-- What is left to read: the rest of a byte that was begun, and whole bytes. -/
structure BitStream where
  pending : List Bool := []
  bytes : List UInt8

def byteBits (b : UInt8) : List Bool :=
  [b.toNat.testBit 0, b.toNat.testBit 1, b.toNat.testBit 2, b.toNat.testBit 3,
    b.toNat.testBit 4, b.toNat.testBit 5, b.toNat.testBit 6, b.toNat.testBit 7]

namespace BitStream

def size (s : BitStream) : Nat := s.pending.length + 8 * s.bytes.length

def bit? (s : BitStream) : Option (Bool × BitStream) :=
  match s.pending, s.bytes with
  | b :: pending, bytes => some (b, ⟨pending, bytes⟩)
  | [], byte :: bytes =>
    match byteBits byte with
    | b :: pending => some (b, ⟨pending, bytes⟩)
    | [] => none
  | [], [] => none

/-- A number of the given width, lowest bit first. -/
def number? : Nat → BitStream → Option (Nat × BitStream)
  | 0, s => some (0, s)
  | n + 1, s => do
    let (b, s) ← s.bit?
    let (high, s) ← number? n s
    return (b.toNat + 2 * high, s)

def align (s : BitStream) : BitStream := ⟨[], s.bytes⟩

end BitStream

def bytesOfNat : Nat → Nat → List UInt8
  | 0, _ => []
  | width + 1, n => UInt8.ofNat n :: bytesOfNat width (n / 256)

def natOfBytes : List UInt8 → Nat
  | [] => 0
  | b :: rest => b.toNat + 256 * natOfBytes rest

def takeBytes? (n : Nat) (bytes : List UInt8) : Option (List UInt8 × List UInt8) :=
  if n ≤ bytes.length then some (bytes.take n, bytes.drop n) else none

end BlockTemplate.Code
