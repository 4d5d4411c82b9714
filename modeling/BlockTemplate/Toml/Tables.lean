import BlockTemplate.Toml.Parser

/-! The tables that lines make up. Every table is defined once: by a header, by the keys of pairs
with points, or on the way to other tables. -/
namespace BlockTemplate.Toml

inductive Origin where
  | header
  /-- It stands in the header of another table; a header of its own may follow. -/
  | implied
  | dotted
  deriving DecidableEq

/-- A part of the tree while it grows. Of an array of tables the last element grows. -/
inductive Node where
  | leaf (v : Value)
  | table (origin : Origin) (entries : List (String × Node))
  | tables (elements : List (List (String × Node)))

abbrev Entries := List (String × Node)

def alter (key : String) (f : Option Node → Option Node) : Entries → Option Entries
  | [] => (f none).map fun n => [(key, n)]
  | (k, n) :: rest =>
    if k = key then (f (some n)).map fun n => (k, n) :: rest
    else (alter key f rest).map ((k, n) :: ·)

def alterLast (f : Entries → Option Entries) : List Entries → Option (List Entries)
  | [] => none
  | [e] => (f e).map ([·])
  | e :: rest => (alterLast f rest).map (e :: ·)

def descend (f : Entries → Option Entries) : Path → Entries → Option Entries
  | [], entries => f entries
  | key :: path, entries =>
    alter key (fun
      | none => (descend f path []).map (.table .implied)
      | some (.table origin inner) => (descend f path inner).map (.table origin)
      | some (.tables elements) => (alterLast (descend f path) elements).map .tables
      | some (.leaf _) => none) entries

def putNew (key : String) (v : Value) : Entries → Option Entries :=
  alter key fun
    | none => some (.leaf v)
    | some _ => none

/-- Adds a pair. The tables that its path names come from paths of pairs as well. -/
def putPair (key : String) (v : Value) : Path → Entries → Option Entries
  | [], entries => putNew key v entries
  | k :: path, entries =>
    alter k (fun
      | none => (putPair key v path []).map (.table .dotted)
      | some (.table origin inner) =>
        if origin = .header || (path.isEmpty && origin ≠ .dotted) then none
        else (putPair key v path inner).map (.table origin)
      | some (.tables elements) =>
        if path.isEmpty then none
        else (alterLast (putPair key v path) elements).map .tables
      | some (.leaf _) => none) entries

def putTable (key : String) : Entries → Option Entries :=
  alter key fun
    | none => some (.table .header [])
    | some (.table .implied inner) => some (.table .header inner)
    | some _ => none

def putElement (key : String) : Entries → Option Entries :=
  alter key fun
    | none => some (.tables [[]])
    | some (.tables elements) => some (.tables (elements ++ [[]]))
    | some _ => none

mutual

def Node.toValue : Node → Value
  | .leaf v => v
  | .table _ entries => .table (entriesToValues entries)
  | .tables elements => .array (elementsToValues elements)

def entriesToValues : List (String × Node) → List (String × Value)
  | [] => []
  | (key, n) :: rest => (key, n.toValue) :: entriesToValues rest

def elementsToValues : List (List (String × Node)) → List Value
  | [] => []
  | e :: rest => .table (entriesToValues e) :: elementsToValues rest

end

def splitPath? (path : Path) : Option (Path × String) := path.getLast?.map (path.dropLast, ·)

mutual

def Term.toValue? : Term → Option Value
  | .text s => some (.text s)
  | .integer n => some (.integer n)
  | .real x => some (.real x)
  | .bool b => some (.bool b)
  | .moment m => some (.moment m)
  | .array items => (termsToValues? items).map .array
  | .inline pairs => (pairsToEntries? [] pairs).map fun entries => .table (entriesToValues entries)

def termsToValues? : List Term → Option (List Value)
  | [] => some []
  | t :: rest => do
    let v ← t.toValue?
    return v :: (← termsToValues? rest)

def pairsToEntries? (entries : Entries) : List (Path × Term) → Option Entries
  | [] => some entries
  | (path, t) :: rest => do
    let v ← t.toValue?
    let (way, key) ← splitPath? path
    pairsToEntries? (← putPair key v way entries) rest

end

def addLines? (root : Entries) (current : Path) : List Line → Option Entries
  | [] => some root
  | .pair path t :: rest => do
    let v ← t.toValue?
    let (way, key) ← splitPath? path
    addLines? (← descend (putPair key v way) current root) current rest
  | .table path :: rest => do
    let (way, key) ← splitPath? path
    addLines? (← descend (putTable key) way root) path rest
  | .element path :: rest => do
    let (way, key) ← splitPath? path
    addLines? (← descend (putElement key) way root) path rest

def parse? (s : String) : Option Value := do
  let entries ← addLines? [] [] (← parseLines? s)
  return .table (entriesToValues entries)

end BlockTemplate.Toml
