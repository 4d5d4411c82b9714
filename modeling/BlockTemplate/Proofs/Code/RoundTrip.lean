import BlockTemplate.Proofs.Code.Base64
import BlockTemplate.Proofs.Code.Gzip
import BlockTemplate.Proofs.Emission.Sound

/-! Code strings: what decoding makes of the code of a document. -/
namespace BlockTemplate.Code
open Text (isBlank)

/-- A compressor as decoding expects it: level 0 stores the bytes in blocks of whatever sizes, and
reading undoes the other levels. -/
structure Compressor.Lawful (compressor : Compressor) : Prop where
  stored : ∀ bytes, Deflate.Stored (compressor 0 bytes) bytes
  undone : ∀ level, 0 < level → compressor.UndoneAt level

theorem Compressor.storing_lawful : Compressor.storing.Lawful :=
  ⟨Deflate.compress_stored, fun level _ => storing_undoneAt level⟩

theorem Compressor.Lawful.undoneAt {compressor : Compressor} (h : compressor.Lawful) (level : Nat) :
    compressor.UndoneAt level := by
  cases level with
  | zero => exact fun bytes => (h.stored bytes).decompress?
  | succ level => exact h.undone (level + 1) (by omega)

theorem ofUtf8?_utf8 (s : String) : ofUtf8? (utf8 s) = some s := by
  have hvalid : (ByteArray.mk s.toByteArray.data).IsValidUTF8 := s.isValidUTF8
  simp [ofUtf8?, utf8, String.fromUTF8?, String.fromUTF8, hvalid]

theorem decode_of_content {code text : String} (h : content code = .ok text) :
    decode code = (Document.parse? text).elim (.error (.undecodable .document)) .ok := by
  simp only [decode, h, bind, Except.bind]
  cases Document.parse? text <;> rfl

section Decoding
variable {compressor : Compressor} {level : Nat} (hundone : compressor.UndoneAt level)
  {before after : List Char} (hbefore : ∀ c ∈ before, isBlank c = true)
  (hafter : ∀ c ∈ after, isBlank c = true)
include hundone hbefore hafter

theorem content_compressed (text : String) :
    content (String.ofList
      (before ++ Base64.encode (Gzip.compress compressor level (utf8 text)) ++ after)) =
      .ok text := by
  have htrim := Base64.trimChars_padded before
    (Base64.encode (Gzip.compress compressor level (utf8 text))) after hbefore hafter
    (Base64.encode_not_blank _)
  rw [content, String.toList_ofList, htrim, Base64.decode?_encode]
  simp only [Gzip.decompress?_compress _ _ _ hundone, Option.bind_some, ofUtf8?_utf8]

theorem content_padded (d : Document) :
    content (String.ofList (before ++ encodeChars compressor level d ++ after)) =
      .ok (d.render Json.compact ++ "\n") :=
  content_compressed hundone hbefore hafter _

theorem decode_padded {d : Document} (hreals : d.Finite) (hsized : d.Sized) :
    decode (String.ofList (before ++ encodeChars compressor level d ++ after)) =
      if d.toData.nesting ≤ readingDepth then .ok d else .error (.undecodable .document) := by
  have hfeed : ∀ c ∈ ['\n'], Json.isBlank c = true := List.forall_mem_singleton.2 rfl
  have hparsed : Document.parse? (d.render Json.compact ++ "\n") =
      if d.toData.nesting ≤ readingDepth then some d else none :=
    d.parse?_render Json.compact_blank hreals hsized hfeed
  rw [decode_of_content (content_padded hundone hbefore hafter d), hparsed]
  by_cases h : d.toData.nesting ≤ readingDepth
  · rw [if_pos h, if_pos h, Option.elim_some]
  · rw [if_neg h, if_neg h, Option.elim_none]

end Decoding

/-- A code string, with any white space around it, is decoded to the document that it was made
from, and this has the same code again. Only a document that nests deeper than a text may is
refused. Its doubles are finite and its counts fit their words, as in every compiled template. -/
theorem decode_encodeWith {compressor : Compressor} (hlawful : compressor.Lawful)
    (settings : Settings) (hlimit : settings.maxCodeLength = none) :
    (∀ d : Document, d.Finite → d.Sized → ∃ code, encodeWith compressor settings d = .ok code ∧
      ∀ before after : List Char, (∀ c ∈ before, isBlank c = true) →
        (∀ c ∈ after, isBlank c = true) →
        let padded := String.ofList before ++ code ++ String.ofList after
        if d.toData.nesting ≤ 127 then
          decode padded = .ok d ∧ (decode padded >>= encodeWith compressor settings) = .ok code
        else decode padded = .error (.undecodable .document)) ∧
    ∀ (c : Compiler) (name : String) (s : Session) (compiled : Compiled),
      c.compile name s = .ok compiled →
        compiled.template.document.Finite ∧ (c.Sized → compiled.template.document.Sized) := by
  refine ⟨fun d hreals hsized => ?_, fun c name s compiled hcompile =>
    ⟨Compiler.compile_finite hcompile, Compiler.compile_sized hcompile⟩⟩
  have hencode : encodeWith compressor settings d =
      .ok (String.ofList (encodeChars compressor settings.compressionLevel d)) := by
    rw [encodeWith, hlimit]
  refine ⟨_, hencode, fun before after hbefore hafter => ?_⟩
  have hdecode := decode_padded (hlawful.undoneAt settings.compressionLevel) hbefore hafter hreals
    hsized
  rw [String.ofList_append, String.ofList_append, readingDepth] at hdecode
  dsimp only
  by_cases hnesting : d.toData.nesting ≤ 127
  · rw [if_pos hnesting] at hdecode
    rw [if_pos hnesting, hdecode]
    exact ⟨rfl, hencode⟩
  · rw [if_neg hnesting] at hdecode
    rw [if_neg hnesting, hdecode]

/-- A sound in a dictionary, in as many lists as the number says. -/
def nestedLists : Nat → Parameter
  | 0 => .dict [("\"\\\x01", .sound "é" 0.1 (-0.0))]
  | n + 1 => .list [nestedLists n]

theorem nestedLists_finite (n : Nat) : ∀ x ∈ (nestedLists n).reals, x.isFinite = true := by
  induction n with
  | zero =>
    have htenth : Float.isFinite 0.1 = true := by decide +kernel
    have hzero : Float.isFinite (-0.0) = true := by decide +kernel
    simp [nestedLists, Parameter.reals, realsOfEntries, htenth, hzero]
  | succ n ih => simpa [nestedLists, Parameter.reals, realsOfParameters] using ih

theorem nestedLists_sized (n : Nat) : (nestedLists n).Sized := by
  induction n with
  | zero => simp [nestedLists, Parameter.Sized, SizedEntries]
  | succ n ih => simpa [nestedLists, Parameter.Sized, SizedParameters] using ih

theorem nestedLists_nesting (n : Nat) : (nestedLists n).toData.nesting = 3 * n + 6 := by
  induction n with
  | zero =>
    simp [nestedLists, Parameter.toData, entriesToData, tagged, Json.Data.nesting, Json.nestingOf,
      Json.fieldNesting]
  | succ n ih =>
    simp [nestedLists, Parameter.toData, parametersToData, tagged, Json.Data.nesting,
      Json.nestingOf, Json.fieldNesting, ih]
    omega

def nestedDocument (n : Nat) : Document :=
  ⟨[.block { block := "event", items := [⟨nestedLists n, 0⟩] }, .bracket .opening .normal]⟩

theorem nestedDocument_nesting (n : Nat) : (nestedDocument n).toData.nesting = 3 * n + 12 := by
  simp [nestedDocument, Document.toData, Record.toData, CodeBlock.toData, Slot.toData,
    optionalField, Json.Data.nesting, Json.nestingOf, Json.fieldNesting, nestedLists_nesting]

theorem nestedDocument_finite (n : Nat) : (nestedDocument n).Finite := by
  intro x hx
  apply nestedLists_finite n
  simpa [nestedDocument, Document.reals, Document.slots, Record.slots] using hx

theorem nestedDocument_sized (n : Nat) : (nestedDocument n).Sized := by
  intro s hs
  simp only [nestedDocument, Document.slots, Record.slots, List.flatMap_cons, List.flatMap_nil,
    List.append_nil, List.mem_singleton] at hs
  rw [hs]
  exact ⟨(by decide : 0 < UInt64.size), nestedLists_sized n⟩

theorem decode_encodeWith_nested :
    (∃ code, encode { compressionLevel := 0 } (nestedDocument 38) = .ok code ∧
      decode ("\n" ++ code ++ "\u3000") = .ok (nestedDocument 38)) ∧
    ∃ code, encode { compressionLevel := 0 } (nestedDocument 39) = .ok code ∧
      decode ("\n" ++ code ++ "\u3000") = .error (.undecodable .document) := by
  have hdecode (n : Nat) := (decode_encodeWith Compressor.storing_lawful { compressionLevel := 0 }
    rfl).1 (nestedDocument n) (nestedDocument_finite n) (nestedDocument_sized n)
  simp only [nestedDocument_nesting] at hdecode
  have hbefore : ∀ c ∈ ['\n'], isBlank c = true := List.forall_mem_singleton.2 rfl
  have hafter : ∀ c ∈ ['\u3000'], isBlank c = true := List.forall_mem_singleton.2 rfl
  constructor
  · obtain ⟨code, hcode, hpadded⟩ := hdecode 38
    exact ⟨code, hcode, (hpadded _ _ hbefore hafter).1⟩
  · obtain ⟨code, hcode, hpadded⟩ := hdecode 39
    exact ⟨code, hcode, hpadded _ _ hbefore hafter⟩

end BlockTemplate.Code
