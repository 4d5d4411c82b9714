import BlockTemplate.Code.Gzip

/-! Stored blocks and the frame around compressed data, written and read back. -/
namespace BlockTemplate.Code

theorem length_bytesOfNat (width n : Nat) : (bytesOfNat width n).length = width := by
  induction width generalizing n with
  | zero => rfl
  | succ width ih => simp [bytesOfNat, ih]

theorem natOfBytes_bytesOfNat_two (n : Nat) (h : n < 65536) : natOfBytes (bytesOfNat 2 n) = n := by
  simp only [bytesOfNat, natOfBytes, UInt8.toNat_ofNat']
  omega

theorem takeBytes?_append (xs ys : List UInt8) :
    takeBytes? xs.length (xs ++ ys) = some (xs, ys) := by
  simp [takeBytes?]

theorem takeBytes?_of_length {n : Nat} (xs ys : List UInt8) (h : xs.length = n) :
    takeBytes? n (xs ++ ys) = some (xs, ys) := by
  rw [← h, takeBytes?_append]

namespace Deflate

/-- The head of a stored block holds its length and the complement of it. -/
theorem stored?_block (bytes rest : List UInt8) (pending : List Bool) (out : Array UInt8)
    (h : bytes.length ≤ 65535) :
    stored? ⟨pending, bytesOfNat 2 bytes.length ++ bytesOfNat 2 (65535 - bytes.length) ++
      bytes ++ rest⟩ out = some (out ++ bytes, ⟨[], rest⟩) := by
  have hhead : (bytesOfNat 2 bytes.length ++ bytesOfNat 2 (65535 - bytes.length)).length = 4 := by
    simp [length_bytesOfNat]
  have htake : (bytesOfNat 2 bytes.length ++ bytesOfNat 2 (65535 - bytes.length)).take 2 =
      bytesOfNat 2 bytes.length := by
    rw [List.take_append_of_le_length (by simp [length_bytesOfNat]),
      List.take_of_length_le (by simp [length_bytesOfNat])]
  have hdrop : (bytesOfNat 2 bytes.length ++ bytesOfNat 2 (65535 - bytes.length)).drop 2 =
      bytesOfNat 2 (65535 - bytes.length) := by
    rw [List.drop_append_of_le_length (by simp [length_bytesOfNat]),
      List.drop_of_length_le (by simp [length_bytesOfNat]), List.nil_append]
  have hlength := natOfBytes_bytesOfNat_two bytes.length (by omega)
  have hsum : bytes.length + natOfBytes (bytesOfNat 2 (65535 - bytes.length)) = 65535 := by
    rw [natOfBytes_bytesOfNat_two _ (by omega)]
    omega
  rw [List.append_assoc _ bytes rest]
  simp only [stored?, BitStream.align, takeBytes?_of_length _ (bytes ++ rest) hhead,
    Option.bind_eq_bind, Option.bind_some, htake, hdrop, hlength, hsum, takeBytes?_append]
  rfl

/-- The first byte of a stored block has three bits that count; the others are passed over. -/
theorem blocks?_stored (n : Nat) (final : Bool) (tail : List UInt8) (out : Array UInt8) :
    ∃ pending, blocks? (n + 1) ⟨[], (if final then 1 else 0) :: tail⟩ out =
      (stored? ⟨pending, tail⟩ out).bind fun (out, s) =>
        if final then some (out, s) else blocks? n s out := by
  cases final with
  | true => exact ⟨_, rfl⟩
  | false => exact ⟨_, rfl⟩

theorem storedBlock_append (final : Bool) (bytes rest : List UInt8) :
    storedBlock final bytes ++ rest = (if final then 1 else 0) ::
      (bytesOfNat 2 bytes.length ++ bytesOfNat 2 (65535 - bytes.length) ++ bytes ++ rest) := by
  simp [storedBlock]

/-- Data that holds the bytes in stored blocks, wherever these are cut. -/
inductive Stored : List UInt8 → List UInt8 → Prop
  | last {bytes : List UInt8} (h : bytes.length ≤ 65535) : Stored (storedBlock true bytes) bytes
  | more {first data bytes : List UInt8} (h : first.length ≤ 65535) (hrest : Stored data bytes) :
      Stored (storedBlock false first ++ data) (first ++ bytes)

theorem compress_stored (bytes : List UInt8) : Stored (compress bytes) bytes := by
  have hblock : blockSize ≤ 65535 := by decide
  fun_induction compress bytes with
  | case1 bytes hsize => exact .last (by omega)
  | case2 bytes hsize ih =>
    have htaken : (bytes.take blockSize).length ≤ 65535 :=
      Nat.le_trans (List.length_take_le ..) hblock
    have hstored := Stored.more htaken ih
    rwa [List.take_append_drop] at hstored

/-- One block is read for each unit of fuel, and a block has at least one byte. -/
theorem Stored.blocks? {data bytes : List UInt8} (h : Stored data bytes) (rest : List UInt8)
    {n : Nat} (hfuel : data.length ≤ n) (out : Array UInt8) :
    Deflate.blocks? n ⟨[], data ++ rest⟩ out = some (out ++ bytes, ⟨[], rest⟩) := by
  induction h generalizing n out with
  | @last bytes hsize =>
    obtain ⟨n, rfl⟩ : ∃ k, n = k + 1 := ⟨n - 1, by simp [storedBlock] at hfuel; omega⟩
    obtain ⟨pending, hblock⟩ := blocks?_stored n true
      (bytesOfNat 2 bytes.length ++ bytesOfNat 2 (65535 - bytes.length) ++ bytes ++ rest) out
    rw [storedBlock_append, hblock, stored?_block bytes rest pending out hsize]
    rfl
  | @more first data bytes hsize _ ih =>
    obtain ⟨n, rfl⟩ : ∃ k, n = k + 1 := ⟨n - 1, by simp [storedBlock] at hfuel; omega⟩
    obtain ⟨pending, hblock⟩ := blocks?_stored n false
      (bytesOfNat 2 first.length ++ bytesOfNat 2 (65535 - first.length) ++ first ++
        (data ++ rest)) out
    have hless : data.length ≤ n := by
      simp [storedBlock] at hfuel
      omega
    rw [List.append_assoc, storedBlock_append, hblock, stored?_block _ _ pending out hsize]
    simp only [Option.bind_some, Bool.false_eq_true, if_false]
    have hout : out ++ first ++ bytes = out ++ (first ++ bytes) := by
      apply Array.ext'
      simp
    rw [ih hless, hout]

/-- Reading undoes storing, and finds what follows. -/
theorem Stored.decompress? {data bytes : List UInt8} (h : Stored data bytes)
    (rest : List UInt8) : Deflate.decompress? (data ++ rest) = some (bytes, rest) := by
  have hblocks := h.blocks? rest (n := 8 * (data ++ rest).length + 1) (by simp; omega) #[]
  simp only [Deflate.decompress?, BitStream.size, List.length_nil, Nat.zero_add, hblocks,
    Option.bind_eq_bind, Option.bind_some]
  simp [BitStream.align]

end Deflate

/-- Reading undoes the compressor at a level, whatever follows its data. -/
def Compressor.UndoneAt (compressor : Compressor) (level : Nat) : Prop :=
  ∀ bytes rest, Deflate.decompress? (compressor level bytes ++ rest) = some (bytes, rest)

theorem Compressor.storing_undoneAt (level : Nat) : Compressor.storing.UndoneAt level :=
  fun bytes => (Deflate.compress_stored bytes).decompress?

namespace Gzip

theorem skipHeader?_header (level : Nat) (rest : List UInt8) :
    skipHeader? (header level ++ rest) = some rest := rfl

theorem length_trailer (bytes : List UInt8) : (trailer bytes).length = 8 := by
  simp [trailer, length_bytesOfNat]

theorem decompress?_compress (compressor : Compressor) (level : Nat) (bytes : List UInt8)
    (h : compressor.UndoneAt level) :
    decompress? (compress compressor level bytes) = some bytes := by
  have hdata := h bytes (trailer bytes)
  have htrailer := takeBytes?_of_length (trailer bytes) [] (length_trailer bytes)
  rw [List.append_nil] at htrailer
  simp only [compress, decompress?, List.append_assoc, skipHeader?_header, Option.bind_eq_bind,
    Option.bind_some, hdata, htrailer, if_true]
  rfl

end Gzip
end BlockTemplate.Code
