import ShaderDialect.Emit.Language

/-! HLSL: matrices are written and indexed by row, and entry points are functions whose parameters
carry semantics. -/
namespace ShaderDialect.Hlsl

/-- A matrix type names its rows first. -/
def typeName : ValueType → String
  | .void => "void"
  | .scalar s => s.plainName
  | .vector s n => s!"{s.plainName}{n}"
  | .matrix s columns rows => s!"{s.plainName}{rows}x{columns}"
  | .struct name => name

def access (c : CallSite) : Except Failure String :=
  match c.intrinsic, c.args with
  | .sample, [t, s, at_] => .ok s!"{t}.Sample({s}, {at_})"
  | .sampleLvl, [t, s, at_, level] => .ok s!"{t}.SampleLevel({s}, {at_}, {level})"
  | .sampleCmp, [t, s, at_, value] => .ok s!"{t}.SampleCmp({s}, {at_}, {value})"
  | .loadRw, [r, i] => do
    if (← c.resource 0).kind.isReadWrite then return s!"{r}[{i}]"
    else throw (.program c.unit.name (.needsReadWrite c.name c.loc))
  | .storeRw, [r, i, value] => do
    if (← c.resource 0).kind.isReadWrite then return s!"{r}[{i}] = {value}"
    else throw (.program c.unit.name (.needsReadWrite c.name c.loc))
  | .atomic .load, _ | .atomic .store, _ => c.unsupported .atomicAccess
  | .atomic op, args => .ok (callText s!"Interlocked{op.verb}" args)
  | _, _ => .ok c.plain

def returns (value : Option String) : List Piece :=
  match value with
  | some v => [.line s!"return {v};"]
  | none => [.line "return;"]

/-- Parameters are those of the source, so nothing stands for `INIT_MAIN`. -/
def language : Language where
  nonUniform := .qualifier
  typeName := typeName
  columnsFirst := false
  respell? _ := none
  floatLiteral text := text
  resourceName _ _ r := r.name
  helperArgs _ _ _ := []
  nonUniformIndex i := s!"NonUniformResourceIndex({i})"
  access := access
  initMain _ := []
  returns _ := returns

end ShaderDialect.Hlsl
