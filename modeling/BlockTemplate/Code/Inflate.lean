import BlockTemplate.Code.Huffman

/-! Compressed data: blocks of bytes stored as they are, or of literals and references to what came
before. Writing uses stored blocks only; reading knows all. -/
namespace BlockTemplate.Code.Deflate

def blockSize : Nat := 31745

def storedBlock (final : Bool) (bytes : List UInt8) : List UInt8 :=
  (if final then 1 else 0) :: (bytesOfNat 2 bytes.length ++
    bytesOfNat 2 (65535 - bytes.length) ++ bytes)

/-- Full blocks are written as they fill up, so the last block may be empty. -/
def compress (bytes : List UInt8) : List UInt8 :=
  if bytes.length < blockSize then storedBlock true bytes
  else storedBlock false (bytes.take blockSize) ++ compress (bytes.drop blockSize)
termination_by bytes.length
decreasing_by
  have : 0 < blockSize := by decide
  simp only [List.length_drop]
  omega

/-- Lengths of references: the least of each symbol, and how many more bits it has. -/
def lengthSymbols : Array (Nat × Nat) := #[
  (3, 0), (4, 0), (5, 0), (6, 0), (7, 0), (8, 0), (9, 0), (10, 0), (11, 1), (13, 1),
  (15, 1), (17, 1), (19, 2), (23, 2), (27, 2), (31, 2), (35, 3), (43, 3), (51, 3), (59, 3),
  (67, 4), (83, 4), (99, 4), (115, 4), (131, 5), (163, 5), (195, 5), (227, 5), (258, 0)]

def distanceSymbols : Array (Nat × Nat) := #[
  (1, 0), (2, 0), (3, 0), (4, 0), (5, 1), (7, 1), (9, 2), (13, 2), (17, 3), (25, 3),
  (33, 4), (49, 4), (65, 5), (97, 5), (129, 6), (193, 6), (257, 7), (385, 7), (513, 8),
  (769, 8), (1025, 9), (1537, 9), (2049, 10), (3073, 10), (4097, 11), (6145, 11),
  (8193, 12), (12289, 12), (16385, 13), (24577, 13)]

def lengthOrder : List Nat := [16, 17, 18, 0, 8, 7, 9, 6, 10, 5, 11, 4, 12, 3, 13, 2, 14, 1, 15]

def fixedLiterals : PrefixCode :=
  .ofLengths (List.replicate 144 8 ++ List.replicate 112 9 ++ List.replicate 24 7 ++
    List.replicate 8 8)

def fixedDistances : PrefixCode := .ofLengths (List.replicate 32 5)

def amount? (table : Array (Nat × Nat)) (symbol : Nat) (s : BitStream) :
    Option (Nat × BitStream) := do
  let (least, width) ← table[symbol]?
  let (more, s) ← s.number? width
  return (least + more, s)

/-- Copies bytes from some distance back; before the start there are zeros. -/
def copyBack (distance : Nat) : Nat → Array UInt8 → Array UInt8
  | 0, out => out
  | n + 1, out =>
    let b := if distance ≤ out.size then out.getD (out.size - distance) 0 else 0
    copyBack distance n (out.push b)

def symbols? (literals distances : PrefixCode) :
    Nat → BitStream → Array UInt8 → Option (Array UInt8 × BitStream)
  | 0, _, _ => none
  | n + 1, s, out => do
    let (symbol, s) ← literals.symbol? s
    if symbol < 256 then symbols? literals distances n s (out.push (UInt8.ofNat symbol))
    else if symbol = 256 then return (out, s)
    else
      let (length, s) ← amount? lengthSymbols (symbol - 257) s
      let (symbol, s) ← distances.symbol? s
      let (distance, s) ← amount? distanceSymbols symbol s
      symbols? literals distances n s (copyBack distance length out)

def stored? (s : BitStream) (out : Array UInt8) : Option (Array UInt8 × BitStream) := do
  let (head, rest) ← takeBytes? 4 s.align.bytes
  let length := natOfBytes (head.take 2)
  if length + natOfBytes (head.drop 2) ≠ 65535 then none
  let (bytes, rest) ← takeBytes? length rest
  return (out ++ bytes, ⟨[], rest⟩)

def threeBits? : Nat → BitStream → Option (List Nat × BitStream)
  | 0, s => some ([], s)
  | n + 1, s => do
    let (first, s) ← s.number? 3
    let (others, s) ← threeBits? n s
    return (first :: others, s)

def givenLength (order given : List Nat) (symbol : Nat) : Nat :=
  match (order.zip given).find? (·.1 == symbol) with
  | some (_, length) => length
  | none => 0

/-- Code lengths, in reverse; a symbol from 16 on repeats the last one or zero. -/
def codeLengths? (code : PrefixCode) (total : Nat) :
    Nat → BitStream → List Nat → Option (List Nat × BitStream)
  | 0, _, _ => none
  | n + 1, s, lengths =>
    if total ≤ lengths.length then
      if lengths.length = total then some (lengths, s) else none
    else do
      let (symbol, s) ← code.symbol? s
      if symbol < 16 then codeLengths? code total n s (symbol :: lengths)
      else if symbol = 16 then
        let last ← lengths.head?
        let (more, s) ← s.number? 2
        codeLengths? code total n s (List.replicate (3 + more) last ++ lengths)
      else if symbol = 17 then
        let (more, s) ← s.number? 3
        codeLengths? code total n s (List.replicate (3 + more) 0 ++ lengths)
      else
        let (more, s) ← s.number? 7
        codeLengths? code total n s (List.replicate (11 + more) 0 ++ lengths)

def usable? (lengths : List Nat) : Option PrefixCode :=
  if PrefixCode.isComplete lengths || PrefixCode.isTrivial lengths then
    some (.ofLengths lengths)
  else none

def ownCodes? (s : BitStream) : Option ((PrefixCode × PrefixCode) × BitStream) := do
  let (literals, s) ← s.number? 5
  let (distances, s) ← s.number? 5
  let (count, s) ← s.number? 4
  if 29 < literals ∨ 29 < distances then none
  let (given, s) ← threeBits? (count + 4) s
  let lengths := (List.range 19).map (givenLength lengthOrder given)
  if !PrefixCode.isComplete lengths then none
  let total := literals + 257 + (distances + 1)
  let (reversed, s) ← codeLengths? (.ofLengths lengths) total (total + 1) s []
  let lengths := reversed.reverse
  let literalCode ← usable? (lengths.take (literals + 257))
  let distanceCode ← usable? (lengths.drop (literals + 257))
  return ((literalCode, distanceCode), s)

def block? (kind : Nat) (s : BitStream) (out : Array UInt8) :
    Option (Array UInt8 × BitStream) := do
  match kind with
  | 0 => stored? s out
  | 1 => symbols? fixedLiterals fixedDistances (s.size + 1) s out
  | 2 =>
    let ((literals, distances), s) ← ownCodes? s
    symbols? literals distances (s.size + 1) s out
  | _ => none

def blocks? : Nat → BitStream → Array UInt8 → Option (Array UInt8 × BitStream)
  | 0, _, _ => none
  | n + 1, s, out => do
    let (final, s) ← s.bit?
    let (kind, s) ← s.number? 2
    let (out, s) ← block? kind s out
    if final then return (out, s)
    blocks? n s out

def decompress? (bytes : List UInt8) : Option (List UInt8 × List UInt8) := do
  let s : BitStream := { bytes }
  let (out, s) ← blocks? (s.size + 1) s #[]
  return (out.toList, s.align.bytes)

end BlockTemplate.Code.Deflate
