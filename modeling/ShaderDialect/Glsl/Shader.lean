import ShaderDialect.Emit.Shader
import ShaderDialect.Glsl.Language

/-! Shaders in GLSL. A resource is bound in the descriptor set of its frequency. -/
namespace ShaderDialect.Glsl
open Emit

def slot (frequency : Frequency) (r : TableResource) : Slot :=
  .descriptor frequency.index r.index

/-- The format of a storage image; elements of three components have none. -/
def imageFormat? (elem : ValueType) : Option String :=
  let channels :=
    match elem.components with
    | 1 => some "r32"
    | 2 => some "rg32"
    | 4 => some "rgba32"
    | _ => none
  match elem.scalar?, channels with
  | some .float, some c | some .half, some c => some (c ++ "f")
  | some .int, some c | some .atomicInt, some c => some (c ++ "i")
  | some .uint, some c | some .atomicUint, some c => some (c ++ "ui")
  | _, _ => none

def declaration (frequency : Frequency) (r : TableResource) : Except Failure (List String) :=
  let place := (slot frequency r).text
  let line (format type : String) :=
    [s!"layout({place}{format}) uniform {type} {r.name}{resourceSuffix r};"]
  -- A buffer is a block with one member of its own name.
  let lines (marker format storage member : String) :=
    if 1 < r.length then .error (.unsupported .vulkan marker (.bufferArrayBlock r.name))
    else .ok (block s!"layout({place}, {format}) {storage} {r.name}_Block" [indented s!"{member};"]
      "\x7d;")
  match r.kind with
  | .sampler comparison => .ok (line "" (if comparison then "samplerShadow" else "sampler"))
  | .texture shape elem => .ok (line "" s!"{elemLetter elem}texture{shapeSuffix shape}")
  | .rwTexture shape elem =>
    match imageFormat? elem with
    | some format => .ok (line s!", {format}" s!"{elemLetter elem}image{shapeSuffix shape}")
    | none => .error (.unsupported .vulkan "DECL_RWTEXTURE" (.imageFormat elem r.name))
  | .buffer elem => lines "DECL_BUFFER" "std430" "readonly buffer" s!"{typeName elem} {r.name}[]"
  | .rwBuffer elem => lines "DECL_RWBUFFER" "std430" "buffer" s!"{typeName elem} {r.name}[]"
  | .constantBuffer elem => lines "DECL_CBUFFER" "std140" "uniform" s!"{typeName elem} {r.name}"

def extensions (descriptorIndexing : Bool) (u : ShaderUnit) : List String :=
  let calls := u.functions.flatMap Function.calls
  let readsView := u.interface.inputs.any (·.isSystem .viewId) ||
    u.interface.systemValues.any (·.systemValue == some .viewId)
  Text.sortNames <|
    (if descriptorIndexing && calls.contains Writer.nonUniformCall then
      ["GL_EXT_nonuniform_qualifier"] else []) ++
    (if calls.contains "AtomicLoad" || calls.contains "AtomicStore" then
      ["GL_KHR_memory_scope_semantics"] else []) ++
    (if calls.any fun name => "Wave".toList.isPrefixOf name.toList then
      ["GL_KHR_shader_subgroup_basic", "GL_KHR_shader_subgroup_vote",
        "GL_KHR_shader_subgroup_arithmetic", "GL_KHR_shader_subgroup_ballot"] else []) ++
    (if readsView then ["GL_EXT_multiview"] else [])

/-- Values that are not interpolated between vertex and pixel shader. -/
def flatWord (rasterized : Bool) (type : ValueType) : String :=
  if rasterized && type.isInteger then "flat " else ""

def inputDeclaration? (stage : Stage) (v : Varying) : Option String :=
  match v.binding, v.field with
  | .location n, some field =>
    let flat := flatWord (stage == .pixel) v.type
    some <| s!"layout(location = {n}) {flat}in {typeName v.type} " ++
      s!"_in_{field}{arraySuffix v.length};"
  | _, _ => none

def outputDeclaration? (stage : Stage) (v : Varying) : Option String :=
  let declare (location : Nat) : String :=
    let flat := flatWord (stage == .vertex) v.type
    s!"layout(location = {location}) {flat}out {typeName v.type} " ++
      s!"{outputName v}{arraySuffix v.length};"
  match v.binding with
  | .location n => some (declare n)
  | .system (.target n) => some (declare n)
  | .system _ => none

def interfaceLines (u : ShaderUnit) : List String :=
  u.interface.inputs.filterMap (inputDeclaration? u.stage) ++
    u.interface.outputs.filterMap (outputDeclaration? u.stage)

def storageWord : String → String
  | "const" => "const "
  | "groupshared" => "shared "
  | _ => ""

def globalLine (l : Language) (u : ShaderUnit) (g : Global) : Except Failure String := do
  let (words, rest) := splitQualifiers g.body
  let text ← globalText l u rest
  return String.join (words.map storageWord) ++ text ++ ";"

def helperParam (p : Parameter) : String :=
  s!"{passingWord p.passing}{typeName p.type} {respell p.name}{arraySuffix p.length}"

def generate (options : EmitOptions) (u : ShaderUnit) : Except Failure Shader := do
  let indexing := options.descriptorIndexing
  let l := language indexing
  let required := (extensions indexing u).map fun e => s!"#extension {e} : require"
  let threads := (u.threads.map fun t =>
    s!"layout(local_size_x = {t.x}, local_size_y = {t.y}, local_size_z = {t.z}) in;").toList
  let table ←
    match u.table with
    | some t => tableLines .vulkan indexing declaration "set " t
    | none => pure []
  let globals ← u.globals.mapM (globalLine l u)
  let helpers ← u.helpers.mapM fun h => functionLines l u h (h.params.map helperParam)
  let body ← entryBody l u
  return {
    source := ofLines (["#version 450", headComment u] ++ required ++ threads ++
      u.structs.flatMap (structDefLines l) ++ table ++ paragraph (interfaceLines u) ++
      paragraph globals ++ helpers.flatten ++ [""] ++ block "void main()" body "\x7d")
    info := .ofUnit u "main" .descriptorSets l.nonUniform (bindingsOf u slot) }

end ShaderDialect.Glsl
