import ShaderDialect.Emit.Language

/-! The Metal shading language: resources are arguments of entry points, one by one or as members of
argument buffers, and helpers take those that they use as parameters. -/
namespace ShaderDialect.Msl

/-- Words that the language keeps for itself; they get an underscore. -/
def reserved : List String :=
  ["vertex", "fragment", "kernel", "sampler", "texture", "constant", "device", "thread",
    "threadgroup", "namespace", "class", "template", "new", "delete", "this", "operator", "private",
    "public", "using", "auto", "signed", "unsigned", "char", "short", "long", "union", "enum",
    "typedef", "virtual", "friend", "explicit", "mutable", "volatile", "register", "goto", "sizeof",
    "typename", "and", "or", "not", "xor"]

def scalarName : Scalar → String
  | .atomicInt => "atomic_int"
  | .atomicUint => "atomic_uint"
  | s => s.plainName

def typeName : ValueType → String
  | .void => "void"
  | .scalar s => scalarName s
  | .vector s n => s!"{scalarName s}{n}"
  | .matrix s columns rows => s!"{scalarName s}{columns}x{rows}"
  | .struct name => name

def respell? (word : String) : Option String :=
  if word = "discard" then some "discard_fragment()"
  else if word = "groupshared" then some "threadgroup"
  else if word ∈ reserved then some s!"{word}_"
  else none

def respell (word : String) : String := (respell? word).getD word

/-- The scalar that the texels of a texture are made of. -/
def texelScalar (elem : ValueType) : String :=
  match elem.scalar? with
  | some .half => "half"
  | some .int | some .atomicInt => "int"
  | some .uint | some .atomicUint => "uint"
  | _ => "float"

def textureCall (c : CallSite) (texture method : String) (args : List String) :
    Except Failure String := do
  match (← c.resource 0).kind with
  | .texture _ _ => return texture ++ "." ++ callText method args
  | _ => throw (.program c.unit.name (.samplesNonTexture c.name c.loc))

def texelCoordinates (c : CallSite) (shape : TextureShape) (i : String) : Except Failure String :=
  match shape with
  | .tex1D => .ok s!"uint({i})"
  | .tex2D => .ok s!"uint2({i})"
  | .tex3D => .ok s!"uint3({i})"
  | _ => c.unsupported .texelShape

def padding (elem : ValueType) : String :=
  match elem.components with
  | 1 => ", 0, 0, 0"
  | 2 => ", 0, 0"
  | 3 => ", 0"
  | _ => ""

def load (c : CallSite) (r i : String) : Except Failure String := do
  match (← c.resource 0).kind with
  | .rwBuffer _ => return s!"{r}[{i}]"
  | .rwTexture shape elem =>
    let coordinates ← texelCoordinates c shape i
    return s!"{r}.read({coordinates}){elem.swizzle}"
  | _ => throw (.program c.unit.name (.needsReadWrite c.name c.loc))

def store (c : CallSite) (r i value : String) : Except Failure String := do
  match (← c.resource 0).kind with
  | .rwBuffer _ => return s!"{r}[{i}] = {value}"
  | .rwTexture shape elem =>
    let coordinates ← texelCoordinates c shape i
    return s!"{r}.write({texelScalar elem}4({value}{padding elem}), {coordinates})"
  | _ => throw (.program c.unit.name (.needsReadWrite c.name c.loc))

def atomicFunction : AtomicOp → String
  | .exchange => "atomic_exchange_explicit"
  | op => "atomic_fetch_" ++ String.ofList (op.verb.toList.map Char.toLower) ++ "_explicit"

/-- The exchange wants the compared value in a variable, and leaves the former value there. -/
def compareExchange (r compared value before : String) : String :=
  s!"\x7b {before} = {compared}; " ++
    s!"atomic_compare_exchange_weak_explicit(&{r}, &{before}, {value}, " ++
    "memory_order_relaxed, memory_order_relaxed); \x7d"

def access (c : CallSite) : Except Failure String :=
  match c.intrinsic, c.args with
  | .sample, [t, s, at_] => textureCall c t "sample" [s, at_]
  | .sampleLvl, [t, s, at_, level] => textureCall c t "sample" [s, at_, s!"level({level})"]
  | .sampleCmp, [t, s, at_, value] => textureCall c t "sample_compare" [s, at_, value]
  | .loadRw, [r, i] => load c r i
  | .storeRw, [r, i, value] => store c r i value
  | .atomic .load, [r, into] => .ok s!"{into} = atomic_load_explicit(&{r}, memory_order_relaxed)"
  | .atomic .store, [r, value] => .ok s!"atomic_store_explicit(&{r}, {value}, memory_order_relaxed)"
  | .atomic .compareExchange, [r, compared, value, before] =>
    .ok (compareExchange r compared value before)
  | .atomic op, [r, value] => .ok s!"{atomicFunction op}(&{r}, {value}, memory_order_relaxed)"
  | .atomic op, [r, value, before] =>
    .ok s!"{before} = {atomicFunction op}(&{r}, {value}, memory_order_relaxed)"
  | _, _ => .ok c.plain

/-- In an entry point a resource is a member of its argument buffer; helpers have it by its name. -/
def resourceName (argumentBuffers : Bool) (role : Role) (frequency : Frequency)
    (r : TableResource) : String :=
  if argumentBuffers && role == .entry then
    match r.kind with
    | .constantBuffer _ => s!"(*srt_{frequency.name}.{r.name})"
    | _ => s!"srt_{frequency.name}.{r.name}"
  else r.name

/-- A helper is handed the resources that it uses. -/
def helperArgs (argumentBuffers : Bool) (u : ShaderUnit) (role : Role) (h : UnitFunction) :
    List String :=
  (h.resources.filterMap u.resource?).map fun (frequency, r) =>
    resourceName argumentBuffers role frequency r

/-- The inputs that are members of the stage's input struct: those with a location, and the position
of a pixel. -/
def inStage (stage : Stage) (v : Varying) : Bool :=
  match v.binding with
  | .location _ => true
  | .system .position => stage == .pixel
  | .system _ => false

def stageInputs (u : ShaderUnit) : List Varying := u.interface.inputs.filter (inStage u.stage)

/-- The parameter for a system value that the source has as a field of its input struct. -/
def systemField (param field : String) : String := s!"_sv_{param}_{field}"

def hasStageInput (u : ShaderUnit) (field : String) : Bool :=
  (stageInputs u).any (·.field == some field)

def inputLine? (u : ShaderUnit) (param : String) (v : Varying) : Option Piece :=
  v.field.map fun field =>
    let value := if hasStageInput u field then s!"_stage_in.{field}" else systemField param field
    .line s!"{respell param}.{field} = {value};"

/-- The input struct of the source is a variable, set from the stage's input. -/
def initMain (u : ShaderUnit) : List Piece :=
  match u.interface.structParam with
  | some (param, struct) =>
    .line s!"{struct} {respell param};" :: u.interface.inputs.filterMap (inputLine? u param)
  | none => []

/-- The member of the stage's output struct that holds an output. -/
def outputField (v : Varying) : String :=
  match v.field, v.binding with
  | some field, _ => field
  | none, .system (.target n) => s!"target{n}"
  | none, _ => "value"

def outputPlace (v : Varying) : String := s!"_out.{outputField v}"

def language (argumentBuffers : Bool) : Language where
  nonUniform := if argumentBuffers then .native else .scan
  typeName := typeName
  columnsFirst := true
  respell? := respell?
  floatLiteral text := text
  resourceName := resourceName argumentBuffers
  helperArgs := helperArgs argumentBuffers
  nonUniformIndex i := i
  access := access
  initMain := initMain
  returns u := u.returnOutputs outputPlace ["_StageOut _out;"] "return _out;"

end ShaderDialect.Msl
