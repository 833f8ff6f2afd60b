import ShaderDialect.Fingerprint
import ShaderDialect.Json.Tree

/-! The record of what has been built, kept in a directory with one row for each input. -/
namespace ShaderDialect

/-- Puts a file in its place, after the directories that it needs. -/
def FileTree.place (t : FileTree) (path : Path) (content : List UInt8) : Except Failure FileTree :=
  let dir : Path :=
    match path.parent? with
    | some dir => if dir.text.isEmpty then ⟨"."⟩ else dir
    | none => ⟨"."⟩
  match t.makeDirectories dir with
  | .error e => .error (.pathIo dir e)
  | .ok t =>
    match t.write path content with
    | .error e => .error (.pathIo path e)
    | .ok t => .ok t

def FileTree.discard (t : FileTree) (path : Path) : Except Failure FileTree :=
  match t.remove path with
  | .ok t => .ok t
  | .error .notFound => .ok t
  | .error e => .error (.pathIo path e)

structure CacheRow where
  input : Path
  /-- The input and what it includes, in the order of their first reading. -/
  dependencies : List Path
  fingerprint : String
  arguments : String
  outputs : List Path
  deriving Repr, DecidableEq

namespace CacheRow

def keys : List String := ["input", "dependencies", "fingerprint", "arguments", "outputs"]

def toJson (r : CacheRow) : Json :=
  let paths (ps : List Path) : Json := .arr (ps.map fun p => .str p.text)
  .obj [("input", .str r.input.text), ("dependencies", paths r.dependencies),
    ("fingerprint", .str r.fingerprint), ("arguments", .str r.arguments),
    ("outputs", paths r.outputs)]

def ofTree? (t : JsonTree) : Option CacheRow := do
  let [some input, some dependencies, some fingerprint, some arguments, some outputs] ←
    t.record? keys | none
  return {
    input := ⟨← input.text?⟩
    dependencies := (← dependencies.texts?).map Path.mk
    fingerprint := ← fingerprint.text?
    arguments := ← arguments.text?
    outputs := (← outputs.texts?).map Path.mk }

def read? (tree : FileTree) (path : Path) : Option CacheRow := do
  let text ← (tree.readText path).toOption
  (JsonTree.read? (Text.utf8 text)).bind ofTree?

/-- Whether what a row says of arguments, outputs and dependencies still holds. -/
def holds (r : CacheRow) (tree : FileTree) (arguments : String) : Bool :=
  r.arguments == arguments && r.outputs.all tree.pathExists &&
    match Fingerprint.ofFiles tree r.dependencies with
    | .ok fingerprint => fingerprint == r.fingerprint
    | .error _ => false

end CacheRow

structure BuildCache where
  dir : Path
  deriving Repr, DecidableEq

namespace BuildCache

/-- The file of an input's row, named by the fingerprint of the input's path. -/
def rowPath (c : BuildCache) (input : Path) : Path :=
  c.dir.joinName (Fingerprint.ofText input.text ++ ".json")

/-- The row of an input. A row that cannot be read, or is another input's, does not count. -/
def load (c : BuildCache) (tree : FileTree) (input : Path) : Option CacheRow :=
  (CacheRow.read? tree (c.rowPath input)).filter fun row => row.input.same input

def isFresh (c : BuildCache) (tree : FileTree) (input : Path) (arguments : String) : Bool :=
  (c.load tree input).any fun row => row.holds tree arguments

def record (c : BuildCache) (tree : FileTree) (row : CacheRow) : Except Failure FileTree :=
  tree.place (c.rowPath row.input) (Text.utf8 row.toJson.pretty)

def invalidate (c : BuildCache) (tree : FileTree) (input : Path) : Except Failure FileTree :=
  tree.discard (c.rowPath input)

end BuildCache
end ShaderDialect
