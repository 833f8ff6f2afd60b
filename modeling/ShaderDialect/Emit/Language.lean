import ShaderDialect.Emit.Piece
import ShaderDialect.Intrinsic
import ShaderDialect.ShaderUnit

/-! What a target's language leaves open when expressions and bodies are written in it. -/
namespace ShaderDialect

/-- How an index that differs between the invocations of a group is written. -/
inductive NonUniform
  /-- The index stands in a qualifier. -/
  | qualifier
  /-- The index is written as it is. -/
  | native
  /-- A loop over the array picks the element by an index that does not differ. -/
  | scan
  deriving Repr, DecidableEq, Inhabited

def NonUniform.name : NonUniform → String
  | qualifier => "qualifier"
  | native => "native"
  | scan => "scan"

/-- Whose body is written. -/
inductive Role
  | entry | helper
  deriving Repr, DecidableEq, Inhabited

structure CallSite where
  unit : ShaderUnit
  name : String
  intrinsic : Intrinsic
  /-- The arguments as they are written on the target. -/
  args : List String
  source : List (List Fragment)
  loc : Loc

namespace CallSite

/-- The resource that an argument starts with. -/
def resource? (c : CallSite) (position : Nat) : Option TableResource := do
  let first ← (← c.source[position]?).head?
  return (← c.unit.resource? (← first.word?)).2

def resource (c : CallSite) (position : Nat) : Except Failure TableResource :=
  match c.resource? position with
  | some r => .ok r
  | none => .error (.program c.unit.name (.needsResource (position + 1) c.name c.loc))

def unsupported {α : Type} (c : CallSite) (fault : Loc → TargetFault) : Except Failure α :=
  .error (.unsupported c.unit.target c.name (fault c.loc))

def plain (c : CallSite) : String := callText c.name c.args

end CallSite

structure Language where
  nonUniform : NonUniform
  typeName : ValueType → String
  /-- Whether matrices are built from columns and indexed by column. -/
  columnsFirst : Bool
  /-- How a word is written that the language keeps for itself or spells differently. -/
  respell? : String → Option String
  floatLiteral : String → String
  /-- How a body names a resource. -/
  resourceName : Role → Frequency → TableResource → String
  /-- The arguments that a call of a helper has in addition to those of the source. -/
  helperArgs : ShaderUnit → Role → UnitFunction → List String
  nonUniformIndex : String → String
  /-- Sampling, image access and atomics. -/
  access : CallSite → Except Failure String
  /-- What stands for `INIT_MAIN`. -/
  initMain : ShaderUnit → List Piece
  /-- What stands for `RETURN`, given the value that is returned. -/
  returns : ShaderUnit → Option String → List Piece

/-- The components that are kept of a texel, which is always read as four. -/
def ValueType.swizzle (elem : ValueType) : String :=
  match elem.components with
  | 1 => ".x"
  | 2 => ".xy"
  | 3 => ".xyz"
  | _ => ""

namespace ShaderUnit
variable (u : ShaderUnit) (place : Varying → String)

def outputLine? (value : Option String) (v : Varying) : Option Piece :=
  match v.field, value with
  | some field, _ => some (.line s!"{place v} = _ret.{field};")
  | none, some x => some (.line s!"{place v} = {x};")
  | none, none => none

/-- A returned value is taken apart, and each stage output is put in its place. -/
def returnOutputs (opening : List String) (closing : String) : Option String → List Piece
  | none => [.line "return;"]
  | some value =>
    let (declaration, plain) :=
      match u.entry.function.returns with
      | .struct struct => ([Piece.line s!"{struct} _ret = {value};"], none)
      | _ => ([], some value)
    [.delim .lbrace] ++ declaration ++ opening.map .line ++
      u.interface.outputs.filterMap (outputLine? place plain) ++ [.line closing, .delim .rbrace]

end ShaderUnit

def Language.respell (l : Language) (word : String) : String := (l.respell? word).getD word

end ShaderDialect
