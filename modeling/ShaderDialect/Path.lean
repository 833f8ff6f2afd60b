import ShaderDialect.Text.Blank

/-! File paths as they are written. Two paths are compared by their components, so that repeated
slashes and inner `.` do not count. -/
namespace ShaderDialect

structure Path where
  text : String
  deriving Repr, DecidableEq, Inhabited

namespace Path

inductive Component
  | root
  | here
  | up
  | name (s : String)
  deriving Repr, DecidableEq

instance : ToString Path := ⟨Path.text⟩

def segments (p : Path) : List String := (Text.splitAt '/' p.text.toList).map String.ofList

def isAbsolute (p : Path) : Bool := p.text.toList.head? == some '/'

def endsInSlash (p : Path) : Bool := p.text.toList.getLast? == some '/'

/-- The component of a segment that does not come first; empty ones and `.` are none. -/
def component? : String → Option Component
  | "" | "." => none
  | ".." => some .up
  | s => some (.name s)

def components (p : Path) : List Component :=
  match p.segments with
  | [] => []
  | first :: rest =>
    let start :=
      if p.isAbsolute then [.root] else if first = "." then [.here] else (component? first).toList
    start ++ rest.filterMap component?

def Component.rank : Component → Nat
  | root => 0
  | here => 1
  | up => 2
  | name _ => 3

/-- The order of components: the root comes first and names come last, in order of their text. -/
def Component.compare : Component → Component → Ordering
  | name a, name b => Ord.compare a b
  | a, b => Ord.compare a.rank b.rank

def compareComponents : List Component → List Component → Ordering
  | [], [] => .eq
  | [], _ :: _ => .lt
  | _ :: _, [] => .gt
  | a :: as, b :: bs => (a.compare b).then (compareComponents as bs)

def compare (p q : Path) : Ordering := compareComponents p.components q.components

def same (p q : Path) : Bool := p.components == q.components

/-- Whether the components of one path start with those of another. -/
def startsWith (p base : Path) : Bool := base.components.isPrefixOf p.components

/-- An absolute path replaces the path it is joined to. -/
def join (p q : Path) : Path :=
  if q.isAbsolute ∨ p.text.isEmpty then q
  else if p.endsInSlash then ⟨p.text ++ q.text⟩
  else ⟨p.text ++ "/" ++ q.text⟩

def joinName (p : Path) (name : String) : Path := p.join ⟨name⟩

/-- Whether a segment at a given position, counted from 0, is a component. -/
def isSignificant (position : Nat) (segment : String) : Bool :=
  !segment.isEmpty && (segment != "." || position == 0)

/-- Drops the segments at the end that are no components. -/
def dropEmptyEnd (segments : List String) : List String :=
  let numbered := segments.zipIdx
  ((numbered.reverse.dropWhile fun e => !isSignificant e.2 e.1).reverse).map (·.1)

/-- The path without its last component; a root and the empty path have no parent. -/
def parent? (p : Path) : Option Path :=
  let body := dropEmptyEnd p.segments
  if body.isEmpty then none
  else
    match dropEmptyEnd body.dropLast with
    | [] => some ⟨if p.isAbsolute then "/" else ""⟩
    | rest => some ⟨"/".intercalate rest⟩

/-- The last component if it is a name. -/
def fileName? (p : Path) : Option String :=
  match p.components.getLast? with
  | some (.name s) => some s
  | _ => none

/-- The part of a name before its last point, if something stands before the point. -/
def stem (name : String) : String :=
  match name.toList.reverse.dropWhile (· != '.') with
  | [] | [_] => name
  | _ :: before => String.ofList before.reverse

def fileStem? (p : Path) : Option String := p.fileName?.map stem

end Path
end ShaderDialect
