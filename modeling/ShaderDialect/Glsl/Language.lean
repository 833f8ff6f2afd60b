import ShaderDialect.Emit.Language

/-! GLSL for Vulkan: stage inputs and outputs are variables, and textures are joined with samplers
where they are read. -/
namespace ShaderDialect.Glsl

/-- Words that the language keeps for itself; they get an underscore. -/
def reserved : List String :=
  ["input", "output", "filter", "sample", "common", "partition", "active", "smooth", "flat",
    "patch", "buffer", "shared", "texture", "sampler", "image", "main", "resource"]

def scalarName : Scalar → String
  | .float | .half => "float"
  | .int | .atomicInt => "int"
  | .uint | .atomicUint => "uint"
  | .bool => "bool"

def vectorLetter : Scalar → String
  | .float | .half => ""
  | .int | .atomicInt => "i"
  | .uint | .atomicUint => "u"
  | .bool => "b"

def typeName : ValueType → String
  | .void => "void"
  | .scalar s => scalarName s
  | .vector s n => s!"{vectorLetter s}vec{n}"
  | .matrix _ columns rows => if columns = rows then s!"mat{columns}" else s!"mat{columns}x{rows}"
  | .struct name => name

def respell? (word : String) : Option String :=
  if word = "groupshared" then some "shared"
  else if word ∈ reserved then some s!"{word}_"
  else none

/-- There are no literals of half precision. -/
def floatLiteral (text : String) : String :=
  String.ofList (text.toList.reverse.dropWhile fun c => c = 'h' || c = 'H').reverse

def elemLetter (elem : ValueType) : String :=
  match elem.scalar? with
  | some .int | some .atomicInt => "i"
  | some .uint | some .atomicUint => "u"
  | _ => ""

def shapeSuffix : TextureShape → String
  | .tex1D => "1D"
  | .tex2D => "2D"
  | .tex2DArray => "2DArray"
  | .tex2DMS => "2DMS"
  | .tex3D => "3D"
  | .texCube => "Cube"

/-- The combined sampler type for reading a texture. -/
def samplerType (c : CallSite) : Except Failure String := do
  match (← c.resource 0).kind with
  | .texture .tex2DMS _ => c.unsupported .multisampled
  | .texture shape elem => return s!"{elemLetter elem}sampler{shapeSuffix shape}"
  | _ => throw (.program c.unit.name (.samplesNonTexture c.name c.loc))

/-- The combined sampler type for comparing with a texture, and the type of its coordinates, which
hold the value that is compared. -/
def shadowType (c : CallSite) : Except Failure (String × String) := do
  match (← c.resource 0).kind with
  | .texture .tex2DMS _ => c.unsupported .multisampled
  | .texture .tex2D _ => return ("sampler2DShadow", "vec3")
  | .texture .tex2DArray _ => return ("sampler2DArrayShadow", "vec4")
  | .texture .texCube _ => return ("samplerCubeShadow", "vec4")
  | .texture _ _ => c.unsupported .comparisonShape
  | _ => throw (.program c.unit.name (.samplesNonTexture c.name c.loc))

def texelCoordinates (shape : TextureShape) (i : String) : String :=
  match shape.texelCoordinates with
  | 1 => s!"int({i})"
  | n => s!"ivec{n}({i})"

/-- What fills up a value to the four components of a texel. -/
def padding (elem : ValueType) : String :=
  match elem.components with
  | 2 => ", 0, 0"
  | 3 => ", 0"
  | _ => ""

def load (c : CallSite) (r i : String) : Except Failure String := do
  match (← c.resource 0).kind with
  | .rwBuffer _ => return s!"{r}[{i}]"
  | .rwTexture shape elem => return s!"imageLoad({r}, {texelCoordinates shape i}){elem.swizzle}"
  | _ => throw (.program c.unit.name (.needsReadWrite c.name c.loc))

def store (c : CallSite) (r i value : String) : Except Failure String := do
  match (← c.resource 0).kind with
  | .rwBuffer _ => return s!"{r}[{i}] = {value}"
  | .rwTexture shape elem =>
    let letter := vectorLetter (elem.scalar?.getD .float)
    let texel := s!"{letter}vec4({value}{padding elem})"
    return s!"imageStore({r}, {texelCoordinates shape i}, {texel})"
  | _ => throw (.program c.unit.name (.needsReadWrite c.name c.loc))

def access (c : CallSite) : Except Failure String :=
  match c.intrinsic, c.args with
  | .sample, [t, s, at_] => do
    let sampler ← samplerType c
    return s!"texture({sampler}({t}, {s}), {at_})"
  | .sampleLvl, [t, s, at_, level] => do
    let sampler ← samplerType c
    return s!"textureLod({sampler}({t}, {s}), {at_}, {level})"
  | .sampleCmp, [t, s, at_, value] => do
    let (sampler, coordinates) ← shadowType c
    return s!"texture({sampler}({t}, {s}), {coordinates}({at_}, {value}))"
  | .loadRw, [r, i] => load c r i
  | .storeRw, [r, i, value] => store c r i value
  | .atomic .load, [r, into] =>
    .ok s!"{into} = atomicLoad({r}, gl_ScopeDevice, gl_StorageSemanticsBuffer, gl_SemanticsRelaxed)"
  | .atomic .store, [r, value] =>
    .ok <| s!"atomicStore({r}, {value}, gl_ScopeDevice, gl_StorageSemanticsBuffer, " ++
      "gl_SemanticsRelaxed)"
  | .atomic .compareExchange, [r, compared, value, before] =>
    .ok s!"{before} = atomicCompSwap({r}, {compared}, {value})"
  | .atomic op, [r, value, before] => .ok s!"{before} = atomic{op.verb}({r}, {value})"
  | .atomic op, [r, value] => .ok s!"atomic{op.verb}({r}, {value})"
  | _, _ => .ok c.plain

def builtinInput : SystemValue → String
  | .position => "gl_FragCoord"
  | .vertexId => "gl_VertexIndex"
  | .instanceId => "gl_InstanceIndex"
  | .primitiveId => "gl_PrimitiveID"
  | .isFrontFace => "gl_FrontFacing"
  | .viewId => "gl_ViewIndex"
  | .dispatchThreadId => "gl_GlobalInvocationID"
  | .groupThreadId => "gl_LocalInvocationID"
  | .groupId => "gl_WorkGroupID"
  | .groupIndex => "gl_LocalInvocationIndex"
  | .target _ | .depth => ""

/-- The variable that a stage output is declared as. -/
def outputName (v : Varying) : String :=
  match v.field, v.binding with
  | some field, _ => s!"_out_{field}"
  | none, .system (.target n) => s!"_out_target{n}"
  | none, _ => "_out_value"

/-- The variable that a stage output is written to. -/
def outputPlace (v : Varying) : String :=
  match v.binding with
  | .system .position => "gl_Position"
  | .system .depth => "gl_FragDepth"
  | _ => outputName v

def respell (word : String) : String := (respell? word).getD word

def inputLine? (param : String) (v : Varying) : Option Piece :=
  v.field.map fun field =>
    let value :=
      match v.binding with
      | .location _ => s!"_in_{field}"
      | .system sv => s!"{typeName v.type}({builtinInput sv})"
    .line s!"{param}.{field} = {value};"

def systemLine? (p : Parameter) : Option Piece :=
  p.systemValue.map fun sv =>
    .line s!"{typeName p.type} {respell p.name} = {typeName p.type}({builtinInput sv});"

/-- The parameters of the source are variables, set from the stage interface. -/
def initMain (u : ShaderUnit) : List Piece :=
  let inputs :=
    match u.interface.structParam with
    | some (param, struct) =>
      .line s!"{struct} {respell param};" ::
        u.interface.inputs.filterMap (inputLine? (respell param))
    | none => []
  inputs ++ u.interface.systemValues.filterMap systemLine?

/-- Descriptor indexing allows indices that differ between invocations. -/
def language (descriptorIndexing : Bool) : Language where
  nonUniform := if descriptorIndexing then .qualifier else .scan
  typeName := typeName
  columnsFirst := true
  respell? := respell?
  floatLiteral := floatLiteral
  resourceName _ _ r := r.name
  helperArgs _ _ _ := []
  nonUniformIndex i := if descriptorIndexing then s!"nonuniformEXT({i})" else i
  access := access
  initMain := initMain
  returns u := u.returnOutputs outputPlace [] "return;"

end ShaderDialect.Glsl
