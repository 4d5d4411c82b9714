import BlockTemplate.Code.Inflate

/-! Compressed data between a header and a trailer that checks it. -/
namespace BlockTemplate.Code

namespace Checksum

/-- The generator, lowest power first. -/
def generator : UInt32 := 0xEDB88320

def step (r : UInt32) : UInt32 := if r &&& 1 = 1 then (r >>> 1) ^^^ generator else r >>> 1

def steps : Nat → UInt32 → UInt32
  | 0, r => r
  | n + 1, r => steps n (step r)

def update (r : UInt32) (b : UInt8) : UInt32 := steps 8 (r ^^^ b.toUInt32)

def crc32 (bytes : List UInt8) : UInt32 := bytes.foldl update 0xFFFFFFFF ^^^ 0xFFFFFFFF

end Checksum

abbrev Compressor := Nat → List UInt8 → List UInt8

def Compressor.storing : Compressor := fun _ bytes => Deflate.compress bytes

namespace Gzip

def levelMark (level : Nat) : UInt8 := if level ≤ 1 then 4 else if level = 9 then 2 else 0

def header (level : Nat) : List UInt8 := [0x1F, 0x8B, 8, 0, 0, 0, 0, 0, levelMark level, 255]

def checksum (bytes : List UInt8) : Nat := (Checksum.crc32 bytes).toNat

def trailer (bytes : List UInt8) : List UInt8 :=
  bytesOfNat 4 (checksum bytes) ++ bytesOfNat 4 bytes.length

def compress (compressor : Compressor) (level : Nat) (bytes : List UInt8) : List UInt8 :=
  header level ++ compressor level bytes ++ trailer bytes

def maxHeaderText : Nat := 65535

def skipExtra? (bytes : List UInt8) : Option (List UInt8) := do
  let (head, rest) ← takeBytes? 2 bytes
  let (_, rest) ← takeBytes? (natOfBytes head) rest
  return rest

def skipText? (bytes : List UInt8) : Option (List UInt8) :=
  let text := bytes.takeWhile (· ≠ 0)
  match bytes.dropWhile (· ≠ 0) with
  | [] => none
  | _ :: rest => if text.length ≤ maxHeaderText then some rest else none

def skipSum? (all bytes : List UInt8) : Option (List UInt8) := do
  let (head, rest) ← takeBytes? 2 bytes
  let covered := all.take (all.length - bytes.length)
  if natOfBytes head = checksum covered % 65536 then return rest else none

def skipIf (flag : Bool) (skip : List UInt8 → Option (List UInt8)) (bytes : List UInt8) :
    Option (List UInt8) :=
  if flag then skip bytes else some bytes

def skipHeader? (bytes : List UInt8) : Option (List UInt8) :=
  match bytes with
  | 0x1F :: 0x8B :: 8 :: flags :: _ :: _ :: _ :: _ :: _ :: _ :: rest => do
    let flags := flags.toNat
    if 32 ≤ flags then none
    let rest ← skipIf (flags.testBit 2) skipExtra? rest
    let rest ← skipIf (flags.testBit 3) skipText? rest
    let rest ← skipIf (flags.testBit 4) skipText? rest
    skipIf (flags.testBit 1) (skipSum? bytes) rest
  | _ => none

/-- The bytes of the first member; nothing after it matters. -/
def decompress? (bytes : List UInt8) : Option (List UInt8) := do
  let rest ← skipHeader? bytes
  let (out, rest) ← Deflate.decompress? rest
  let (sums, _) ← takeBytes? 8 rest
  if sums = trailer out then return out else none

end Gzip
end BlockTemplate.Code
