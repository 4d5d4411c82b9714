import BlockTemplate.TextMap
import BlockTemplate.Value.Kind

/-! Declared variables in nested frames. The newest declaration of a name in the innermost frame
that has one is the one a name refers to; frames that are left are kept for the record only. -/
namespace BlockTemplate

structure Declaration where
  name : String
  scope : VariableClass
  kind : Option Kind
  depth : Nat
  deriving DecidableEq

def Declaration.ref (d : Declaration) : VarRef := ⟨d.name, d.scope⟩

/-- Declarations, oldest first, and the place of the latest one of each name. -/
structure Frame where
  declarations : List Declaration := []
  byName : TextMap Nat := .empty
  deriving DecidableEq

namespace Frame

def insert (f : Frame) (d : Declaration) : Frame where
  declarations := f.declarations ++ [d]
  byName := f.byName.insert d.name f.declarations.length

def get? (f : Frame) (name : String) : Option Declaration :=
  (f.byName.find? name).bind (f.declarations[·]?)

def find? (f : Frame) (v : VarRef) : Option Declaration :=
  f.declarations.reverse.find? (·.ref == v)

def declares (f : Frame) (v : VarRef) : Bool := (f.find? v).isSome

end Frame

structure KindConflict where
  name : String
  previous : Kind
  declared : Kind
  deriving DecidableEq

structure Declarations where
  current : Frame := {}
  /-- The frames around the current one, innermost first. -/
  outer : List Frame := []
  retired : List Frame := []
  conflicts : List KindConflict := []
  deriving DecidableEq

namespace Declarations

def empty : Declarations := {}

def depth (d : Declarations) : Nat := d.outer.length

def live (d : Declarations) : List Frame := d.current :: d.outer

def find? (d : Declarations) (name : String) : Option Declaration :=
  d.live.findSome? (·.get? name)

def resolve? (d : Declarations) (name : String) : Option VarRef := (d.find? name).map (·.ref)

def unknownMessage (name : String) : String := "unknown variable: " ++ name

def isVisible (d : Declarations) (v : VarRef) : Bool := d.live.any (·.declares v)

def conflict? (d : Declarations) (name : String) (kind : Option Kind) : Option KindConflict := do
  let previous ← (← d.find? name).kind
  let declared ← kind
  if previous = declared then none else some ⟨name, previous, declared⟩

def declare (d : Declarations) (name : String) (scope : VariableClass) (kind : Option Kind) :
    Declarations :=
  { d with
    current := d.current.insert ⟨name, scope, kind, d.depth⟩
    conflicts := d.conflicts ++ (d.conflict? name kind).toList }

def enter (d : Declarations) : Declarations :=
  { d with current := {}, outer := d.current :: d.outer }

def exit (d : Declarations) : Declarations :=
  match d.outer with
  | [] => d
  | frame :: outer =>
    { d with current := frame, outer := outer, retired := d.retired ++ [d.current] }

/-- Every declaration ever made, by depth; within a depth, frames in force come first. -/
def all (d : Declarations) : List Declaration :=
  ((d.live.reverse ++ d.retired).flatMap (·.declarations)).mergeSort (fun a b => a.depth ≤ b.depth)

end Declarations
end BlockTemplate
