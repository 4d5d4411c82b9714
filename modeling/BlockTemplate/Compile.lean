import BlockTemplate.Code.Basic
import BlockTemplate.Emission.Basic
import BlockTemplate.Schema.Builtin
import BlockTemplate.Script.Parser
import BlockTemplate.Script.Replay

/-! From a session or a script to a template. -/
namespace BlockTemplate

structure Heading where
  name : String
  author : String
  compilerVersion : String := "0.1.0"
  deriving DecidableEq

structure Template where
  heading : Heading
  document : Document

structure Compiled where
  steps : List Step
  template : Template

/-- What a compilation depends on besides its input. -/
structure Compiler where
  settings : Settings := {}
  table : SchemaTable := Schema.Builtin.table

namespace Compiler

def compile (c : Compiler) (name : String) (s : Session) : Except CompileError Compiled := do
  let steps ← flatten s.finish.nodes
  let records ← emit c.table c.settings.limits steps
  return ⟨steps, ⟨{ name, author := c.settings.author }, ⟨records⟩⟩⟩

def encode (c : Compiler) (name : String) (s : Session) : Except CompileError String := do
  let compiled ← c.compile name s
  Code.encode c.settings compiled.template.document

def blame (script : List (Script.Located Script.Statement)) (e : CompileError) :
    Option Script.Span := do
  let i ← e.index?
  let statement ← script[i]?
  return statement.span

def compileScript (c : Compiler) (name source : String) : Except Script.Failure Compiled := do
  let script ← (Script.parse source).mapError .script
  let session ← Script.replay .empty script
  (c.compile name session).mapError fun e => .compile e (blame script e)

end Compiler

def envelope (settings : Settings) (heading : Heading) (code : String) : String :=
  (Json.Data.object [("author", .text heading.author), ("name", .text heading.name),
    ("version", .integer settings.formatVersion), ("code", .text code)]).render Json.compact

end BlockTemplate
