import ShaderDialect.Emit.Shader
import ShaderDialect.Msl.Language

/-! Shaders in the Metal shading language. -/
namespace ShaderDialect.Msl
open Emit

/-- Ray tracing and indirect commands need argument buffers. -/
def usesArgumentBuffers (options : EmitOptions) (u : ShaderUnit) : Bool :=
  options.argumentBuffers || u.features.contains .rayTracing || u.features.contains .icb

/-- The type of a texture. Textures that are compared with are depth textures. -/
def textureType (u : ShaderUnit) (name : String) (shape : TextureShape) (elem : ValueType)
    (write : Bool) : Except Failure String :=
  if name ∈ u.compared then
    match shape with
    | .tex2D => .ok "depth2d<float>"
    | .tex2DArray => .ok "depth2d_array<float>"
    | .texCube => .ok "depthcube<float>"
    | _ => .error (.unsupported .metal "SampleCmp" (.depthShape name))
  else
    let base :=
      match shape with
      | .tex1D => "texture1d"
      | .tex2D => "texture2d"
      | .tex2DArray => "texture2d_array"
      | .tex2DMS => "texture2d_ms"
      | .tex3D => "texture3d"
      | .texCube => "texturecube"
    let mode := if write then ", access::read_write" else ""
    .ok s!"{base}<{texelScalar elem}{mode}>"

/-- The type of a single resource. A constant buffer is a pointer in an argument buffer and a
reference elsewhere. -/
def singleType (u : ShaderUnit) (member : Bool) (r : TableResource) : Except Failure String :=
  match r.kind with
  | .sampler _ => .ok "sampler"
  | .texture shape elem => textureType u r.name shape elem false
  | .rwTexture shape elem => textureType u r.name shape elem true
  | .buffer elem => .ok s!"const device {typeName elem}*"
  | .rwBuffer elem => .ok s!"device {typeName elem}*"
  | .constantBuffer elem => .ok (s!"constant {typeName elem}" ++ if member then "*" else "&")

/-- Samplers and textures have arrays, buffers have none. -/
def resourceType (u : ShaderUnit) (member : Bool) (r : TableResource) : Except Failure String := do
  let type ← singleType u member r
  if r.length ≤ 1 then return type
  match ArgumentClass.ofKind r.kind with
  | .sampler | .texture => return s!"array<{type}, {r.length}>"
  | .buffer => throw (.unsupported .metal r.kind.label (.bufferArrayParameter r.name))

/-- How many arguments of each class are taken. -/
structure Taken where
  textures : Nat
  buffers : Nat
  samplers : Nat

namespace Taken

def none : Taken := ⟨0, 0, 0⟩

def count (t : Taken) : ArgumentClass → Nat
  | .texture => t.textures
  | .buffer => t.buffers
  | .sampler => t.samplers

def add (t : Taken) (n : Nat) : ArgumentClass → Taken
  | .texture => { t with textures := t.textures + n }
  | .buffer => { t with buffers := t.buffers + n }
  | .sampler => { t with samplers := t.samplers + n }

end Taken

/-- Resources take the arguments of their class one after the other, in the order of the table. -/
def directBindings (taken : Taken) : List (Frequency × TableResource) → List Binding
  | [] => []
  | (frequency, r) :: rest =>
    let kind := ArgumentClass.ofKind r.kind
    ⟨frequency, r, .argument kind (taken.count kind)⟩ ::
      directBindings (taken.add (max r.length 1) kind) rest

def memberSlot (frequency : Frequency) (r : TableResource) : Slot :=
  .member frequency.index r.index

def bindings (argumentBuffers : Bool) (t : ResourceTable) : List Binding :=
  if argumentBuffers then Emit.bindings t memberSlot else directBindings .none t.resources

def bufferLines (u : ShaderUnit) (s : TableSet) : Except Failure (List String) := do
  let members ← s.resources.mapM fun r => do
    let type ← resourceType u true r
    return s!"{type} {r.name} [[id({r.index})]];"
  return structLines s!"Srt_{s.frequency.name}" members

/-- The parameters of an entry point that carry its resources. -/
def directParam? (u : ShaderUnit) (b : Binding) : Except Failure (Option String) :=
  if b.resource.name ∈ u.entry.resources then do
    let type ← resourceType u false b.resource
    return some s!"{type} {b.resource.name} [[{b.slot.text}]]"
  else .ok none

def bufferParam (s : TableSet) : String :=
  let f := s.frequency.name
  s!"constant Srt_{f}& srt_{f} [[buffer({s.frequency.index})]]"

/-- The declarations and the parameters for the resources of a table. -/
def tableParts (argumentBuffers : Bool) (u : ShaderUnit) (t : ResourceTable) :
    Except Failure (List String × List String) := do
  t.checkLimits .metal argumentBuffers
  if argumentBuffers then
    return ((← t.sets.mapM (bufferLines u)).flatten, t.sets.map bufferParam)
  else
    return ([], (← (directBindings .none t.resources).mapM (directParam? u)).filterMap id)

def systemAttribute : SystemValue → String
  | .position => "position"
  | .vertexId => "vertex_id"
  | .instanceId => "instance_id"
  | .primitiveId => "primitive_id"
  | .isFrontFace => "front_facing"
  | .viewId => "amplification_id"
  | .dispatchThreadId => "thread_position_in_grid"
  | .groupThreadId => "thread_position_in_threadgroup"
  | .groupId => "threadgroup_position_in_grid"
  | .groupIndex => "thread_index_in_threadgroup"
  | .depth => "depth(any)"
  | .target _ => "color"

def stageKeyword : Stage → String
  | .vertex => "vertex"
  | .pixel => "fragment"
  | .compute => "kernel"

/-- The attribute of a location between two stages. Integers are not interpolated. -/
def userLocation (n : Nat) (type : ValueType) (flat : Bool) : String :=
  s!"user(loc{n})" ++ if flat && type.isInteger then ", flat" else ""

def inputAttribute (stage : Stage) (v : Varying) : String :=
  match v.binding with
  | .location n => if stage = .vertex then s!"attribute({n})" else userLocation n v.type true
  | .system sv => systemAttribute sv

def outputAttribute (stage : Stage) (v : Varying) : String :=
  match v.binding with
  | .location n => userLocation n v.type (stage == .vertex)
  | .system (.target n) => s!"color({n})"
  | .system sv => systemAttribute sv

def memberText (name place : String) (v : Varying) : String :=
  s!"{typeName v.type} {name}{arraySuffix v.length} [[{place}]];"

def stageInLines (u : ShaderUnit) : List String :=
  if (stageInputs u).isEmpty then []
  else structLines "_StageIn" ((stageInputs u).map fun v =>
    memberText (v.field.getD "value") (inputAttribute u.stage v) v)

def stageOutLines (u : ShaderUnit) : List String :=
  if u.interface.outputs.isEmpty then []
  else structLines "_StageOut" (u.interface.outputs.map fun v =>
    memberText (outputField v) (outputAttribute u.stage v) v)

inductive GlobalLine
  | constant (text : String)
  /-- Memory of a group is declared in the kernel. -/
  | threadgroup (text : String)

def globalLine (l : Language) (u : ShaderUnit) (g : Global) : Except Failure GlobalLine := do
  let (words, rest) := splitQualifiers g.body
  let text ← globalText l u rest
  if words.contains "groupshared" then
    let name := ((rest[1]?).bind Fragment.word?).getD ""
    if u.stage ≠ .compute then
      throw (.unsupported .metal "groupshared" (.groupsharedStage name g.loc))
    if u.helpers.any fun h => h.function.values.any (·.1 == name) then
      throw (.unsupported .metal "groupshared" (.groupsharedHelper name g.loc))
    return .threadgroup s!"threadgroup {text};"
  else if words.contains "const" then return .constant s!"constant {text};"
  else throw (.unsupported .metal "global" (.mutableGlobal g.loc))

def helperParam (p : Parameter) : String :=
  let type := typeName p.type
  let name := respell p.name
  if p.passing.byReference then
    match p.length with
    | some n => s!"thread {type} (&{name})[{n}]"
    | none => s!"thread {type}& {name}"
  else s!"{type} {name}{arraySuffix p.length}"

def helperLines (l : Language) (u : ShaderUnit) (h : UnitFunction) :
    Except Failure (List String) := do
  let resources ← (h.resources.filterMap u.resource?).mapM fun (_, r) => do
    let type ← resourceType u false r
    return s!"{type} {r.name}"
  functionLines l u h (h.params.map helperParam ++ resources)

/-- The parameter for a system value among the fields of the input struct. -/
def fieldParam? (u : ShaderUnit) (param : String) (v : Varying) : Option String :=
  match v.field, v.binding with
  | some field, .system sv =>
    if hasStageInput u field then none
    else some s!"{typeName v.type} {systemField param field} [[{systemAttribute sv}]]"
  | _, _ => none

def systemParam? (p : Parameter) : Option String :=
  p.systemValue.map fun sv => s!"{typeName p.type} {respell p.name} [[{systemAttribute sv}]]"

def entryParams (u : ShaderUnit) : List String :=
  let fields :=
    match u.interface.structParam with
    | some (param, _) => u.interface.inputs.filterMap (fieldParam? u param)
    | none => []
  (if (stageInputs u).isEmpty then [] else ["_StageIn _stage_in [[stage_in]]"]) ++ fields ++
    u.interface.systemValues.filterMap systemParam?

def generate (options : EmitOptions) (u : ShaderUnit) : Except Failure Shader := do
  let argumentBuffers := usesArgumentBuffers options u
  let l := language argumentBuffers
  let entry := stageKeyword u.stage ++ "Main"
  let (table, resourceParams) ←
    match u.table with
    | some t => tableParts argumentBuffers u t
    | none => pure ([], [])
  let globals ← u.globals.mapM (globalLine l u)
  let constants := globals.filterMap fun
    | .constant text => some text
    | .threadgroup _ => none
  let threadgroup := globals.filterMap fun
    | .constant _ => none
    | .threadgroup text => some text
  let helpers ← u.helpers.mapM (helperLines l u)
  let body ← entryBody l u
  let returned := if u.interface.outputs.isEmpty then "void" else "_StageOut"
  let head :=
    s!"{stageKeyword u.stage} {returned} " ++ callText entry (entryParams u ++ resourceParams)
  return {
    source := ofLines ([headComment u, "#include <metal_stdlib>", "using namespace metal;"] ++
      u.structs.flatMap (structDefLines l) ++ table ++ stageInLines u ++ stageOutLines u ++
      paragraph constants ++ helpers.flatten ++ [""] ++
      block head (threadgroup.map indented ++ body) "\x7d")
    info := .ofUnit u entry (if argumentBuffers then .argumentBuffers else .directBinding)
      l.nonUniform ((u.table.map (bindings argumentBuffers)).getD []) }

end ShaderDialect.Msl
