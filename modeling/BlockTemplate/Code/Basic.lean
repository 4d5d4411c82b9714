import BlockTemplate.Code.Base64
import BlockTemplate.Code.Gzip
import BlockTemplate.Error
import BlockTemplate.Record.Read
import BlockTemplate.Settings.Basic
import BlockTemplate.Text.Basic

/-! Code strings: the compact text of a document and a line feed, compressed, as base64. -/
namespace BlockTemplate.Code

def utf8 (s : String) : List UInt8 := s.toUTF8.data.toList

def ofUtf8? (bytes : List UInt8) : Option String := String.fromUTF8? ⟨bytes.toArray⟩

def payload (d : Document) : List UInt8 := utf8 (d.render Json.compact ++ "\n")

def encodeChars (compressor : Compressor) (level : Nat) (d : Document) : List Char :=
  Base64.encode (Gzip.compress compressor level (payload d))

def encodeWith (compressor : Compressor) (settings : Settings) (d : Document) :
    Except CompileError String :=
  let code := encodeChars compressor settings.compressionLevel d
  match settings.maxCodeLength with
  | none => .ok (String.ofList code)
  | some max =>
    if max < code.length then .error (.codeTooLong code.length max)
    else .ok (String.ofList code)

def encode (settings : Settings) (d : Document) : Except CompileError String :=
  encodeWith .storing settings d

/-- The text in a code string; white space around the code is passed over. -/
def content (code : String) : Except CompileError String :=
  match Base64.decode? (Text.trimChars code.toList) with
  | none => .error (.undecodable .base64)
  | some bytes =>
    match (Gzip.decompress? bytes).bind ofUtf8? with
    | none => .error (.undecodable .gzip)
    | some text => .ok text

def decode (code : String) : Except CompileError Document := do
  match Document.parse? (← content code) with
  | some d => return d
  | none => throw (.undecodable .document)

end BlockTemplate.Code
