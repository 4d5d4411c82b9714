import BlockTemplate.CommandLine.Run

/-! The command: reads the files that the options name, and prints. -/
namespace BlockTemplate.CommandLine

def readText (path : String) : IO (Except String String) := do
  try return .ok (← IO.FS.readFile path) catch e => return .error (toString e)

partial def readLines (input : IO.FS.Stream) (read : String) : IO String := do
  let line ← input.getLine
  if line.isEmpty then return read
  readLines input (read ++ line)

def readStandardInput : IO (Except String String) := do
  try return .ok (← readLines (← IO.getStdin) "") catch e => return .error (toString e)

def loadSources (o : Options) : IO Sources := do
  let files ← o.paths.mapM fun path => do return (path, ← readText path)
  let input ← if o.readsStandardInput then readStandardInput else pure (.ok "")
  return {
    file := fun path =>
      match files.find? (·.1 == path) with
      | some (_, text) => text
      | none => .error "not read"
    standardInput := input }

def finish (result : Except CommandError String) : IO UInt32 := do
  match result with
  | .ok text => IO.print text
  | .error (.stopped .help) => IO.println CommandError.usage
  | .error e =>
    if let some text := e.text? then IO.eprintln text
    return UInt32.ofNat e.status
  return 0

end BlockTemplate.CommandLine

open BlockTemplate.CommandLine in
def main (args : List String) : IO UInt32 := do
  match Options.parse args with
  | .error stop => finish (.error (.stopped stop))
  | .ok o => finish (run (← loadSources o) o)
