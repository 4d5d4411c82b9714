import BlockTemplate.CommandLine.Options
import BlockTemplate.Compile
import BlockTemplate.Listing
import BlockTemplate.Report
import BlockTemplate.Schema.Toml
import BlockTemplate.Settings.Toml

/-! What the command does, given the texts that it reads. -/
namespace BlockTemplate.CommandLine

inductive LoadError (ε : Type) where
  | io (reason : String)
  | refused (e : ε)

inductive CommandError where
  | stopped (s : Stop)
  | undecodable (e : CompileError)
  | settings (path : String) (e : LoadError SettingsError)
  | schema (path : String) (e : LoadError SchemaError)
  | input (path : String) (reason : String)
  | standardInput (reason : String)
  | script (filename source : String) (failure : Script.Failure)
  | encoding (e : CompileError)

namespace CommandError

def settingsCause : LoadError SettingsError → String
  | .io reason => "Failed to read config file: " ++ reason
  | .refused .unreadable => "Failed to parse config TOML"
  | .refused (.invalid fault) => fault.message

def schemaCause : LoadError SchemaError → String
  | .io reason => "Failed to read schema file: " ++ reason
  | .refused .unreadable => "Failed to parse schema TOML"
  | .refused (.invalid e) => e.message

def usage : String :=
  "Usage: [-c FILE] [-s FILE] [-n NAME] [-a NAME] [--dump | --json | --envelope] " ++
    "[--decode CODE] [-d] [-h] [FILE]"

/-- What is told about the error. A script error that cannot be shown has no text. -/
def text? : CommandError → Option String
  | .stopped _ => some usage
  | .undecodable e | .encoding e => some ("Error: " ++ e.message)
  | .settings path e => some ("Error loading config '" ++ path ++ "': " ++ settingsCause e)
  | .schema path e => some ("Error loading schema '" ++ path ++ "': " ++ schemaCause e)
  | .input path reason => some ("Error reading file '" ++ path ++ "': " ++ reason)
  | .standardInput reason => some ("Error reading from stdin: " ++ reason)
  | .script filename source failure =>
    (Report.notices? source failure).map (Report.render filename)

def status (e : CommandError) : Nat :=
  match e with
  | .stopped .help => 0
  | .stopped .usage => 2
  | e => if e.text?.isSome then 1 else 101

end CommandError

structure Sources where
  file : String → Except String String
  standardInput : Except String String

def Options.paths (o : Options) : List String :=
  if (o.get? .decode).isSome then []
  else (o.get? .config).toList ++ (o.get? .schema).toList ++ o.input.toList

def Options.readsStandardInput (o : Options) : Bool :=
  (o.get? .decode).isNone && o.input.isNone

def loadSettings (sources : Sources) (path : String) : Except CommandError Settings :=
  match sources.file path with
  | .error reason => .error (.settings path (.io reason))
  | .ok text => (Settings.parse text).mapError fun e => .settings path (.refused e)

def loadSchema (sources : Sources) (path : String) : Except CommandError SchemaTable :=
  match sources.file path with
  | .error reason => .error (.schema path (.io reason))
  | .ok text => (SchemaTable.parse text).mapError fun e => .schema path (.refused e)

def compilerOf (sources : Sources) (o : Options) : Except CommandError Compiler := do
  let settings ←
    match o.get? .config with
    | some path => loadSettings sources path
    | none => pure {}
  let table ←
    match o.get? .schema with
    | some path => do pure (Schema.Builtin.table.merge (← loadSchema sources path))
    | none => pure Schema.Builtin.table
  return { settings := { settings with author := (o.get? .author).getD settings.author }, table }

def sourceOf (sources : Sources) (o : Options) : Except CommandError (String × String) :=
  match o.input with
  | some path =>
    match sources.file path with
    | .ok text => .ok (text, path)
    | .error reason => .error (.input path reason)
  | none =>
    match sources.standardInput with
    | .ok text => .ok (text, "<stdin>")
    | .error reason => .error (.standardInput reason)

def outputOf (o : Options) (c : Compiler) (compiled : Compiled) : Except CompileError String := do
  let template := compiled.template
  if o.has .dump then return Listing.render compiled.steps
  if o.has .json then return template.document.render Json.pretty ++ "\n"
  let code ← Code.encode c.settings template.document
  if o.has .envelope then return envelope c.settings template.heading code ++ "\n"
  return code ++ "\n"

def compileInput (sources : Sources) (o : Options) : Except CommandError String := do
  let c ← compilerOf sources o
  let (source, filename) ← sourceOf sources o
  let name := (o.get? .name).getD "template"
  let compiled ← (c.compileScript name source).mapError (.script filename source)
  (outputOf o c compiled).mapError .encoding

def decodeCode (code : String) : Except CommandError String :=
  match Code.decode code with
  | .ok d => .ok (d.render Json.pretty ++ "\n")
  | .error e => .error (.undecodable e)

/-- What the command prints. Decoding goes before everything else. -/
def run (sources : Sources) (o : Options) : Except CommandError String :=
  match o.get? .decode with
  | some code => decodeCode code
  | none => compileInput sources o

def runArgs (sources : Sources) (args : List String) : Except CommandError String := do
  run sources (← (Options.parse args).mapError .stopped)

end BlockTemplate.CommandLine
