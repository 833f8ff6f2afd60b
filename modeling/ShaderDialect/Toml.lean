/-! Values of TOML documents. -/
namespace ShaderDialect

inductive Toml
  | str (s : String)
  | int (n : Int)
  /-- A number with a fraction or an exponent, as it is written; no setting is one. -/
  | float (text : String)
  | bool (b : Bool)
  /-- A date, a time of day or both, in their usual form. -/
  | dateTime (text : String)
  | arr (elements : List Toml)
  | table (fields : List (String × Toml))
  deriving Inhabited

namespace Toml

/-- A value at a key of a document under construction. -/
inductive Node
  | value (v : Toml)
  /-- A table is implicit until a header names it, and dotted if keys with dots made it. -/
  | table (implicit dotted : Bool) (entries : List (String × Node))
  /-- Tables that the same header opened again and again; the last one is open. -/
  | series (tables : List (List (String × Node)))

namespace Node

mutual
def toToml : Node → Toml
  | value v => v
  | table _ _ entries => .table (entriesToToml entries)
  | series tables => .arr (tablesToToml tables)

def entriesToToml : List (String × Node) → List (String × Toml)
  | [] => []
  | (key, n) :: rest => (key, n.toToml) :: entriesToToml rest

def tablesToToml : List (List (String × Node)) → List Toml
  | [] => []
  | t :: ts => .table (entriesToToml t) :: tablesToToml ts
end

end Node

abbrev Entries := List (String × Node)

namespace Entries

/-- The entries with another node at a key that is there. -/
def replace (es : Entries) (key : String) (n : Node) : Entries :=
  es.map fun (k, m) => if k = key then (k, n) else (k, m)

/-- Changes the table at the end of a path, where missing tables are made. Keys with dots do not
reach into a table that a header has named. -/
def change (dottedPath : Bool) (leaf : (dotted : Bool) → Entries → Option Entries) :
    List String → (dotted : Bool) → Entries → Option Entries
  | [], dotted, es => leaf dotted es
  | key :: path, _, es =>
    match es.lookup key with
    | none => do
      let inner ← change dottedPath leaf path dottedPath []
      return es ++ [(key, .table true dottedPath inner)]
    | some (.value _) => none
    | some (.table implicit dotted inner) =>
      if dottedPath && !implicit then none
      else do
        let inner ← change dottedPath leaf path dotted inner
        return replace es key (.table implicit dotted inner)
    | some (.series tables) => do
      let last ← tables.getLast?
      let last ← change dottedPath leaf path false last
      return replace es key (.series (tables.dropLast ++ [last]))

/-- Sets a key below a table. The table of a key with dots has to be one that such keys made. -/
def set (path : List String) (key : String) (v : Toml) (dotted : Bool) (es : Entries) :
    Option Entries :=
  change true (fun dotted es =>
    if dotted == path.isEmpty then none
    else if (es.lookup key).isSome then none
    else some (es ++ [(key, .value v)])) path dotted es

/-- Opens the table of a header. A table can be opened once, and not after keys with dots made
it. -/
def openTable (path : List String) (key : String) (es : Entries) : Option Entries :=
  change false (fun _ es =>
    match es.lookup key with
    | none => some (es ++ [(key, .table false false [])])
    | some (.table true false inner) => some (replace es key (.table false false inner))
    | some _ => none) path false es

def openSeries (path : List String) (key : String) (es : Entries) : Option Entries :=
  change false (fun _ es =>
    match es.lookup key with
    | none => some (es ++ [(key, .series [[]])])
    | some (.series tables) => some (replace es key (.series (tables ++ [[]])))
    | some _ => none) path false es

/-- Sets a key below the table that is open. -/
def setIn (opened path : List String) (key : String) (v : Toml) (es : Entries) : Option Entries :=
  change false (set path key v) opened false es

def toToml (es : Entries) : Toml := .table (Node.entriesToToml es)

end Entries
end Toml
end ShaderDialect
