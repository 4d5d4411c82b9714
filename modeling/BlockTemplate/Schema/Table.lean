import BlockTemplate.Schema.Basic
import BlockTemplate.TextMap

/-! Tables of schemas: a map from blocks to maps from the names of their actions. -/
namespace BlockTemplate

structure SchemaTable where
  blocks : TextMap (TextMap ActionSchema) := .empty
  deriving DecidableEq

structure InvalidSchema where
  block : String
  action : String
  fault : SchemaFault
  deriving DecidableEq

def InvalidSchema.message (e : InvalidSchema) : String :=
  "invalid schema for " ++ e.block ++ " " ++ e.action ++ ": " ++ e.fault.reason

namespace SchemaTable

def empty : SchemaTable := {}

/-- The outcome of an insertion: whether it was accepted, and the table after it. -/
abbrev Outcome := Except InvalidSchema Unit × SchemaTable

def put (t : SchemaTable) (s : ActionSchema) : SchemaTable :=
  { blocks := t.blocks.insert s.block (((t.blocks.find? s.block).getD .empty).insert s.name s) }

def putAll (t : SchemaTable) (schemas : List ActionSchema) : SchemaTable := schemas.foldl put t

def insert (t : SchemaTable) (s : ActionSchema) : Outcome :=
  match s.check with
  | .ok () => (.ok (), t.put s)
  | .error fault => (.error { block := s.block, action := s.name, fault := fault }, t)

def insertAll (t : SchemaTable) : List ActionSchema → Except InvalidSchema SchemaTable
  | [] => .ok t
  | s :: rest =>
    match t.insert s with
    | (.ok (), next) => next.insertAll rest
    | (.error e, _) => .error e

def merge (t other : SchemaTable) : SchemaTable :=
  { blocks := t.blocks.absorb (fun own actions => (own.getD .empty).extend actions) other.blocks }

def lookup (t : SchemaTable) (block action : String) : Option ActionSchema :=
  (t.blocks.find? block).bind (·.find? action)

def actions (t : SchemaTable) (block : String) : List String :=
  ((t.blocks.find? block).map (·.keys)).getD []

def size (t : SchemaTable) : Nat := t.blocks.rows.foldl (fun n b => n + b.2.size) 0

end SchemaTable
end BlockTemplate
