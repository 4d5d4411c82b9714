import BlockTemplate.Proofs.Code.RoundTrip
import BlockTemplate.Proofs.Record.Accepted

/-! Decoding normalises: whatever was decoded has a code, which is decoded to it and encoded to
itself. -/
namespace BlockTemplate.Code
open Text (isBlank)

theorem decode_eq_ok {code : String} {d : Document} (h : decode code = .ok d) :
    ∃ text, content code = .ok text ∧ Document.parse? text = some d := by
  obtain ⟨text, hcontent, h⟩ := bind_eq_ok.1 h
  refine ⟨text, hcontent, ?_⟩
  split at h
  · cases h
    assumption
  · cases h

theorem decode_fits {code : String} {d : Document} (h : decode code = .ok d) :
    d.Finite ∧ d.Sized ∧ d.toData.nesting ≤ readingDepth := by
  obtain ⟨text, _, hparse⟩ := decode_eq_ok h
  obtain ⟨t, _, hterm⟩ := Option.bind_eq_some_iff.1 hparse
  exact Document.ofTerm?_fits hterm

/-- Any string that is decoded, however its document was written, gives a document of finite
doubles. Its own code is decoded to it again, and encoding that gives the same code. -/
theorem decode_normalises {compressor : Compressor} (settings : Settings)
    (hundone : compressor.UndoneAt settings.compressionLevel)
    (hlimit : settings.maxCodeLength = none) {code : String} {d : Document}
    (h : decode code = .ok d) :
    d.Finite ∧ ∃ normal, encodeWith compressor settings d = .ok normal ∧ decode normal = .ok d ∧
      (decode normal >>= encodeWith compressor settings) = .ok normal := by
  obtain ⟨hfinite, hsized, hnesting⟩ := decode_fits h
  have hencode : encodeWith compressor settings d =
      .ok (String.ofList (encodeChars compressor settings.compressionLevel d)) := by
    rw [encodeWith, hlimit]
  have hdecode : decode (String.ofList (encodeChars compressor settings.compressionLevel d)) =
      .ok d := by
    have hpadded := decode_padded hundone (List.forall_mem_nil _) (List.forall_mem_nil _)
      hfinite hsized
    rwa [if_pos hnesting, List.nil_append, List.append_nil] at hpadded
  refine ⟨hfinite, _, hencode, hdecode, ?_⟩
  rw [hdecode]
  exact hencode

/-- A document as another program may write it: records as arrays, fields in another order, unknown
or null, and whole numbers for doubles. -/
def foreignText : String :=
  "[[\x7b\"block\":\"a\",\"action\":null,\"id\":\"block\",\"args\":\x7b\"items\":" ++
  "[[\x7b\"data\":\x7b\"w\":[],\"z\":0,\"y\":1,\"x\":-3\x7d,\"id\":\"vec\"\x7d,0]]\x7d\x7d," ++
  "[\"bracket\",\"open\",\"norm\"]]]"

def foreignCode : String :=
  String.ofList ([' '] ++ Base64.encode (Gzip.compress .storing 0 (utf8 foreignText)) ++ ['\n'])

theorem decode_normalises_foreign :
    ∃ d normal, decode foreignCode = .ok d ∧ d.blocks.length = 2 ∧ d.Finite ∧
      encode { compressionLevel := 0 } d = .ok normal ∧ decode normal = .ok d ∧
      (decode normal >>= encode { compressionLevel := 0 }) = .ok normal := by
  have hbefore : ∀ c ∈ [' '], isBlank c = true := List.forall_mem_singleton.2 rfl
  have hafter : ∀ c ∈ ['\n'], isBlank c = true := List.forall_mem_singleton.2 rfl
  have hcontent : content foreignCode = .ok foreignText :=
    content_compressed (Compressor.storing_undoneAt 0) hbefore hafter foreignText
  have hread : (Document.parse? foreignText).map (·.blocks.length) = some 2 := by decide +kernel
  obtain ⟨d, hd, hlength⟩ := Option.map_eq_some_iff.1 hread
  have hdecode : decode foreignCode = .ok d := by
    rw [decode_of_content hcontent, hd, Option.elim_some]
  obtain ⟨hfinite, normal, hnormal⟩ :=
    decode_normalises { compressionLevel := 0 } (Compressor.storing_undoneAt 0) rfl hdecode
  exact ⟨d, normal, hdecode, hlength, hfinite, hnormal⟩

end BlockTemplate.Code
