import BlockTemplate.Script.Error

/-! Reports of failures, with the line and column in the source. -/
namespace BlockTemplate.Report

def endsLine (c : Char) : Bool :=
  ['\n', '\r', '\x0b', '\x0c', '\u0085', '\u2028', '\u2029'].contains c

def lineEndsAt (c : Char) (rest : List Char) : Bool :=
  endsLine c && !(c = '\r' && rest.head? = some '\n')

/-- Line and column so many characters further on. After the last character no new line starts. -/
def position (line column : Nat) : Nat → List Char → Nat × Nat
  | 0, _ => (line, column)
  | _ + 1, [] => (line, column)
  | n + 1, c :: rest =>
    if lineEndsAt c rest && !rest.isEmpty then position (line + 1) 1 n rest
    else position line (column + 1) n rest

structure Notice where
  message : String
  position : Option (Nat × Nat)
  deriving DecidableEq

/-- Offsets are counted in characters. A range that leaves the source points nowhere. -/
def positionOf? (source : List Char) (span : Script.Span) : Option (Nat × Nat) :=
  if source.length < span.start ∨ (span.start < span.stop ∧ source.length < span.stop - 1) then
    none
  else some (position 1 1 span.start source)

/-- A range that ends before it starts cannot be shown. -/
def notice? (source : List Char) (message : String) (span : Script.Span) : Option Notice :=
  if span.stop < span.start then none else some ⟨message, positionOf? source span⟩

def notices? (source : String) : Script.Failure → Option (List Notice)
  | .script errors => errors.mapM fun e => notice? source.toList e.message e.span
  | .compile error (some span) => (notice? source.toList error.message span).map ([·])
  | .compile error none => some [⟨error.message, none⟩]

def Notice.lines (filename : String) (n : Notice) : List String :=
  ("Error: " ++ n.message) ::
    match n.position with
    | some (line, column) =>
      ["   ╭─[" ++ filename ++ ":" ++ toString line ++ ":" ++ toString column ++ "]"]
    | none => []

def render (filename : String) (notices : List Notice) : String :=
  Text.joinWith "\n" (notices.flatMap (·.lines filename))

end BlockTemplate.Report
