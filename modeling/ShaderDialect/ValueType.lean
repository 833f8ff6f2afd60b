import ShaderDialect.Json

/-! Value types of the dialect. A matrix `floatCxR` has `C` columns of `R` components. -/
namespace ShaderDialect

inductive Scalar
  | float | half | int | uint | bool | atomicInt | atomicUint
  deriving Repr, DecidableEq, Inhabited

/-- The spelling of a scalar, in which atomics are their plain counterparts. -/
def Scalar.plainName : Scalar → String
  | float => "float"
  | half => "half"
  | int | atomicInt => "int"
  | uint | atomicUint => "uint"
  | bool => "bool"

def Scalar.key : Scalar → String
  | atomicInt => "atomicint"
  | atomicUint => "atomicuint"
  | s => s.plainName

inductive ValueType
  | void
  | scalar (s : Scalar)
  | vector (s : Scalar) (size : Nat)
  | matrix (s : Scalar) (columns rows : Nat)
  | struct (name : String)
  deriving Repr, DecidableEq, Inhabited

namespace ValueType

/-- Scalars with vectors, under the names their types start with. -/
def scalarNames : List (String × Scalar) :=
  [("float", .float), ("half", .half), ("uint", .uint), ("int", .int), ("bool", .bool)]

/-- Vectors and matrices have two to four components in each direction. -/
def extent? : Char → Option Nat
  | '2' => some 2
  | '3' => some 3
  | '4' => some 4
  | _ => none

/-- The type of a scalar's name followed by an extent or two. Only floating-point scalars have
matrices. -/
def shaped? (s : Scalar) : List Char → Option ValueType
  | [] => some (.scalar s)
  | [n] => (extent? n).map (.vector s)
  | [c, 'x', r] =>
    if s = .float ∨ s = .half then
      match extent? c, extent? r with
      | some columns, some rows => some (.matrix s columns rows)
      | _, _ => none
    else none
  | _ => none

def strip? : List Char → List Char → Option (List Char)
  | [], cs => some cs
  | x :: xs, c :: cs => if x = c then strip? xs cs else none
  | _ :: _, [] => none

def builtin? (name : String) : Option ValueType :=
  if name = "void" then some .void
  else if name = "atomic_uint" then some (.scalar .atomicUint)
  else if name = "atomic_int" then some (.scalar .atomicInt)
  else
    match scalarNames.findSome? fun (n, s) => (strip? n.toList name.toList).map (s, ·) with
    | some (s, rest) => shaped? s rest
    | none => none

/-- The type that a name stands for; a name that is not built in is a struct's. -/
def ofName (name : String) : ValueType := (builtin? name).getD (.struct name)

def name : ValueType → String
  | void => "void"
  | scalar .atomicUint => "atomic_uint"
  | scalar .atomicInt => "atomic_int"
  | scalar s => s.plainName
  | vector s n => s!"{s.plainName}{n}"
  | matrix s c r => s!"{s.plainName}{c}x{r}"
  | struct name => name

def scalar? : ValueType → Option Scalar
  | scalar s | vector s _ | matrix s _ _ => some s
  | _ => none

def isAtomic (t : ValueType) : Bool := t == scalar .atomicInt || t == scalar .atomicUint

/-- The components of a vector; every other type counts as one. -/
def components : ValueType → Nat
  | vector _ n => n
  | _ => 1

/-- Types whose values are not interpolated. -/
def isInteger (t : ValueType) : Bool :=
  match t.scalar? with
  | some .float | some .half | none => false
  | some _ => true

def toJson : ValueType → Json
  | void => .str "Void"
  | scalar s => .obj [("Scalar", .str s.key)]
  | vector s n => .obj [("Vector", .arr [.str s.key, .nat n])]
  | matrix s c r =>
    .obj [("Matrix", .obj [("scalar", .str s.key), ("columns", .nat c), ("rows", .nat r)])]
  | struct name => .obj [("Struct", .str name)]

end ValueType
end ShaderDialect
