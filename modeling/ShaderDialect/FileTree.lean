import ShaderDialect.IoFault
import ShaderDialect.Path
import ShaderDialect.Text.Utf8

/-! A file system as a value: directories and files by their names from the root. Names in a path
are looked up one after the other, so that `a/../b` is found only if `a` is a directory. A new file
or directory needs a path whose last component is a name, in a directory that exists. There are no
links: what holds for every file system here is about trees of directories and files. -/
namespace ShaderDialect

inductive Node
  | directory
  | file (content : List UInt8) (executable : Bool)
  deriving Repr, DecidableEq

/-- A tree and the directory that relative paths start from. -/
structure FileTree where
  cwd : List String
  nodes : List (List String × Node)
  deriving Repr

namespace FileTree

/-- The names that lead from the root to a node. -/
abbrev Key := List String

variable {k j : Key} (t : FileTree)

def node? (t : FileTree) (k : Key) : Option Node :=
  if k = [] then some .directory else t.nodes.lookup k

def erase (t : FileTree) (k : Key) : FileTree :=
  { t with nodes := t.nodes.filter fun (k', _) => k' != k }

def insert (t : FileTree) (k : Key) (n : Node) : FileTree :=
  { t with nodes := (k, n) :: (t.erase k).nodes }

theorem node?_insert_self (h : k ≠ []) (n : Node) :
    (t.insert k n).node? k = some n := by simp [node?, insert, h]

theorem lookup_filter_ne (h : j ≠ k) (nodes : List (Key × Node)) :
    (nodes.filter fun (k', _) => k' != k).lookup j = nodes.lookup j := by
  induction nodes with
  | nil => rfl
  | cons e nodes ih =>
    obtain ⟨k', n⟩ := e
    by_cases hk : k' = k
    · subst hk
      rw [List.filter_cons_of_neg (by simp), List.lookup_cons, beq_eq_false_iff_ne.2 h, ih]
    · rw [List.filter_cons_of_pos (by simpa using hk), List.lookup_cons, List.lookup_cons, ih]

theorem node?_insert_of_ne (h : j ≠ k) (n : Node) : (t.insert k n).node? j = t.node? j := by
  simp only [node?, insert, erase]
  split
  · rfl
  · rw [List.lookup_cons, beq_eq_false_iff_ne.2 h, lookup_filter_ne h]

theorem node?_erase_of_ne (h : j ≠ k) : (t.erase k).node? j = t.node? j := by
  simp only [node?, erase, lookup_filter_ne h]

/-- What each segment of a path asks for; empty ones and `.` ask for a directory. -/
def stepOf : String → Path.Component
  | "" | "." => .here
  | ".." => .up
  | s => .name s

def nameLimit : Nat := 255

/-- A path has fewer bytes than this. -/
def pathLimit : Nat := 4096

def checkName (s : String) : Except IoFault Unit :=
  if nameLimit < s.utf8ByteSize then .error .nameTooLong else .ok ()

/-- Refuses a path that names nothing in any tree. -/
def checkPath (p : Path) : Except IoFault Unit :=
  if p.text.toList.contains '\x00' then .error .nulInName
  else if p.text.isEmpty then .error .notFound
  else .ok ()

def checkLength (p : Path) : Except IoFault Unit :=
  if pathLimit ≤ p.text.utf8ByteSize then .error .nameTooLong else .ok ()

/-- The node that names lead to from a given one. -/
def walk (t : FileTree) : Key → List Path.Component → Except IoFault Key
  | k, [] => .ok k
  | k, c :: cs =>
    match t.node? k with
    | none => .error .notFound
    | some (.file _ _) => .error .notADirectory
    | some .directory =>
      match c with
      | .root => walk t [] cs
      | .here => walk t k cs
      | .up => walk t k.dropLast cs
      | .name s => do
        checkName s
        if (t.node? (k ++ [s])).isSome then walk t (k ++ [s]) cs else .error .notFound

def start (t : FileTree) (p : Path) : Key := if p.isAbsolute then [] else t.cwd

/-- The key of an existing path of any length. -/
def find (t : FileTree) (p : Path) : Except IoFault Key := do
  checkPath p
  t.walk (t.start p) (p.segments.map stepOf)

def resolve (t : FileTree) (p : Path) : Except IoFault Key := do
  checkPath p
  checkLength p
  t.walk (t.start p) (p.segments.map stepOf)

def pathOf (k : Key) : Path := ⟨"/" ++ "/".intercalate k⟩

/-- The absolute path without `.` and `..` of an existing path. -/
def canonical (t : FileTree) (p : Path) : Except IoFault Path := return pathOf (← t.find p)

/-- The path from the root that need not exist: `.` and repeated slashes are dropped, `..` and a
slash at the end are kept. Exactly two slashes at the start are kept too. -/
def absolute (t : FileTree) (p : Path) : Path :=
  let slashes := (p.text.toList.takeWhile (· == '/')).length
  let base : Path := if p.isAbsolute then ⟨if slashes = 2 then "//" else "/"⟩ else pathOf t.cwd
  let full := (p.segments.filter fun s => s != "" && s != ".").foldl Path.joinName base
  if p.endsInSlash then full.joinName "" else full

/-- The directory that a path's last component is looked up in, which has to exist, and that
component; the root has none. -/
def lookupLast (t : FileTree) (p : Path) : Except IoFault (Key × Option Path.Component) := do
  checkPath p
  checkLength p
  let steps := (p.segments.filter (· != "")).map stepOf
  let dir ← t.walk (t.start p) (steps.dropLast ++ [.here])
  return (dir, steps.getLast?)

def isFile (t : FileTree) (p : Path) : Bool :=
  match t.resolve p with
  | .ok k => match t.node? k with
    | some (.file _ _) => true
    | _ => false
  | .error _ => false

def isDirectory (t : FileTree) (p : Path) : Bool :=
  match t.resolve p with
  | .ok k => t.node? k == some .directory
  | .error _ => false

def pathExists (t : FileTree) (p : Path) : Bool := (t.resolve p).isOk

def read (t : FileTree) (p : Path) : Except IoFault (List UInt8) := do
  match t.node? (← t.resolve p) with
  | some (.file content _) => return content
  | some .directory => throw .isADirectory
  | none => throw .notFound

def readText (t : FileTree) (p : Path) : Except IoFault String := do
  match Text.ofUtf8? (← t.read p) with
  | some s => return s
  | none => throw .notUtf8

/-- Puts a new file at a path, in place of a file that is there. A path that ends in a slash or in
dots is a directory's. -/
def write (t : FileTree) (p : Path) (content : List UInt8) : Except IoFault FileTree := do
  match ← t.lookupLast p with
  | (dir, some (.name s)) =>
    if p.endsInSlash then throw .isADirectory
    checkName s
    if t.node? (dir ++ [s]) = some .directory then throw .isADirectory
    return t.insert (dir ++ [s]) (.file content false)
  | _ => throw .isADirectory

def remove (t : FileTree) (p : Path) : Except IoFault FileTree := do
  let k ← t.resolve p
  match t.node? k with
  | some .directory => throw .isADirectory
  | _ => return t.erase k

def makeDirectory (t : FileTree) (p : Path) : Except IoFault FileTree := do
  match ← t.lookupLast p with
  | (dir, some (.name s)) =>
    checkName s
    if (t.node? (dir ++ [s])).isSome then throw .alreadyExists
    return t.insert (dir ++ [s]) .directory
  | _ => throw .alreadyExists

/-- Makes a directory, after the ones that it stands in as far as they are missing. The fuel is the
number of the path's components. -/
def makeDirectoriesFrom : Nat → FileTree → Path → Except IoFault FileTree
  | fuel, t, p =>
    if p.text.isEmpty then .ok t
    else match t.makeDirectory p with
      | .ok t => .ok t
      | .error .notFound =>
        match fuel, p.parent? with
        | fuel + 1, some dir => do
          let t ← makeDirectoriesFrom fuel t dir
          match t.makeDirectory p with
          | .ok t => .ok t
          | .error e => if t.isDirectory p then .ok t else .error e
        | _, _ => .error .notFound
      | .error e => if t.isDirectory p then .ok t else .error e

def makeDirectories (t : FileTree) (p : Path) : Except IoFault FileTree :=
  makeDirectoriesFrom p.components.length t p

/-- The files below a directory, each by the names that lead to it from there. -/
def filesBelow (t : FileTree) (dir : Key) : List Key :=
  t.nodes.filterMap fun (k, n) =>
    match n with
    | .file _ _ => if dir.isPrefixOf k && dir != k then some (k.drop dir.length) else none
    | .directory => none

/-- Drops a node and everything below it. -/
def eraseBelow (t : FileTree) (k : Key) : FileTree :=
  { t with nodes := t.nodes.filter fun (k', _) => !k.isPrefixOf k' }

/-- The tree with a directory for each proper prefix of a key. -/
def insertParents (t : FileTree) (k : Key) : FileTree :=
  (List.range k.length).foldl
    (fun t n => if (t.node? (k.take n)).isSome then t else t.insert (k.take n) .directory) t

/-- A tree of one empty directory, which is also the working directory. -/
def empty (cwd : Key) : FileTree :=
  let t : FileTree := { cwd, nodes := [] }
  (t.insertParents cwd).insert cwd .directory

end FileTree
end ShaderDialect
