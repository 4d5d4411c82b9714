/-! Command line options. -/
namespace BlockTemplate.CommandLine

inductive Switch where
  | dump | json | envelope | debug | help
  deriving DecidableEq

inductive Setting where
  | config | schema | name | author | decode
  deriving DecidableEq

def Setting.isPath : Setting → Bool
  | .config | .schema => true
  | _ => false

inductive Flag where
  | switch (s : Switch)
  | setting (s : Setting)
  deriving DecidableEq

def longFlag? (word : String) : Option Flag :=
  match word with
  | "dump" => some (.switch .dump)
  | "json" => some (.switch .json)
  | "envelope" => some (.switch .envelope)
  | "debug" => some (.switch .debug)
  | "help" => some (.switch .help)
  | "config" => some (.setting .config)
  | "schema" => some (.setting .schema)
  | "name" => some (.setting .name)
  | "author" => some (.setting .author)
  | "decode" => some (.setting .decode)
  | _ => none

def shortFlag? (c : Char) : Option Flag :=
  match c with
  | 'd' => some (.switch .debug)
  | 'h' => some (.switch .help)
  | 'c' => some (.setting .config)
  | 's' => some (.setting .schema)
  | 'n' => some (.setting .name)
  | 'a' => some (.setting .author)
  | _ => none

structure Options where
  switches : List Switch := []
  settings : List (Setting × String) := []
  input : Option String := none

namespace Options

def has (o : Options) (s : Switch) : Bool := o.switches.contains s

def get? (o : Options) (s : Setting) : Option String :=
  (o.settings.find? (·.1 == s)).map (·.2)

end Options

inductive Stop where
  | help
  | usage
  deriving DecidableEq

namespace Options

def turnOn (o : Options) (s : Switch) : Except Stop Options :=
  if s = .help then .error .help
  else if o.has s then .error .usage
  else .ok { o with switches := s :: o.switches }

def set (o : Options) (s : Setting) (value : String) : Except Stop Options :=
  if (o.get? s).isSome || (s.isPath && value.isEmpty) then .error .usage
  else .ok { o with settings := (s, value) :: o.settings }

def setInput (o : Options) (path : String) : Except Stop Options :=
  if o.input.isSome || path.isEmpty then .error .usage else .ok { o with input := some path }

def setInputs (o : Options) : List String → Except Stop Options
  | [] => .ok o
  | path :: rest => do setInputs (← o.setInput path) rest

/-- Short flags in one argument. A setting takes the rest of it, or asks for the next one. -/
def cluster (o : Options) : List Char → Except Stop (Options × Option Setting)
  | [] => .ok (o, none)
  | c :: rest =>
    match shortFlag? c with
    | none => .error .usage
    | some (.switch s) => do cluster (← o.turnOn s) rest
    | some (.setting s) =>
      match rest with
      | [] => .ok (o, some s)
      | '=' :: value => (o.set s (String.ofList value)).map (·, none)
      | value => (o.set s (String.ofList value)).map (·, none)

def long (o : Options) (text : List Char) : Except Stop (Options × Option Setting) :=
  let word := text.takeWhile (· ≠ '=')
  let value := (text.dropWhile (· ≠ '=')).drop 1
  let hasValue := text.contains '='
  match longFlag? (String.ofList word) with
  | none => .error .usage
  | some (.switch s) => if hasValue then .error .usage else (o.turnOn s).map (·, none)
  | some (.setting s) =>
    if hasValue then (o.set s (String.ofList value)).map (·, none) else .ok (o, some s)

/-- Whether an argument would be read as a flag. A dash alone is a name. -/
def looksLikeFlag : List Char → Bool
  | '-' :: _ :: _ => true
  | _ => false

def argument (o : Options) (arg : String) : Except Stop (Options × Option Setting) :=
  match arg.toList with
  | '-' :: '-' :: text => o.long text
  | '-' :: c :: text => o.cluster (c :: text)
  | _ => (o.setInput arg).map (·, none)

def read (o : Options) : Option Setting → List String → Except Stop Options
  | none, [] => .ok o
  | some _, [] => .error .usage
  | some s, arg :: rest =>
    if looksLikeFlag arg.toList then .error .usage
    else do read (← o.set s arg) none rest
  | none, arg :: rest =>
    if arg = "--" then o.setInputs rest
    else do
      let (o, waiting) ← o.argument arg
      read o waiting rest

def checkOutput (o : Options) : Except Stop Options :=
  if 1 < ([Switch.dump, .json, .envelope].filter o.has).length then .error .usage else .ok o

def parse (args : List String) : Except Stop Options := do
  (← read {} none args).checkOutput

end Options
end BlockTemplate.CommandLine
