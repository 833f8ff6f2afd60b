import ShaderDialect.Emit.Shader
import ShaderDialect.Hlsl.Language

/-! Shaders in HLSL. A resource is bound to a register of its class, in the space of its set. -/
namespace ShaderDialect.Hlsl
open Emit

def slot (frequency : Frequency) (r : TableResource) : Slot :=
  .register (.ofKind r.kind) r.index frequency.index

def textureType : TextureShape → String
  | .tex1D => "Texture1D"
  | .tex2D => "Texture2D"
  | .tex2DArray => "Texture2DArray"
  | .tex2DMS => "Texture2DMS"
  | .tex3D => "Texture3D"
  | .texCube => "TextureCube"

def resourceType : ResourceKind → String
  | .sampler false => "SamplerState"
  | .sampler true => "SamplerComparisonState"
  | .texture shape elem => s!"{textureType shape}<{typeName elem}>"
  | .rwTexture shape elem => s!"RW{textureType shape}<{typeName elem}>"
  | .buffer elem => s!"StructuredBuffer<{typeName elem}>"
  | .rwBuffer elem => s!"RWStructuredBuffer<{typeName elem}>"
  | .constantBuffer elem => s!"ConstantBuffer<{typeName elem}>"

/-- A single constant buffer is a block; an array of them needs a struct for its elements. -/
def declaration (frequency : Frequency) (r : TableResource) : Except Failure (List String) :=
  let place := callText "register" [(slot frequency r).text]
  let line := s!"{resourceType r.kind} {r.name}{resourceSuffix r} : {place};"
  match r.kind with
  | .constantBuffer elem =>
    if r.length = 1 then
      .ok (block s!"cbuffer {r.name}_Block : {place}" [indented s!"{typeName elem} {r.name};"]
        "\x7d;")
    else
      match elem with
      | .struct _ => .ok [line]
      | _ => .error (.unsupported .direct3d12 "DECL_CBUFFER" (.constantBufferArray r.name))
  | _ => .ok [line]

def semanticSuffix (s : Semantic) : String :=
  match s.systemValue? with
  | some v => s!" : {v.semantic}"
  | none => s!" : {s.text}"

def fieldText (f : Field) : String :=
  let semantic := (f.semantic.map semanticSuffix).getD ""
  s!"{typeName f.type} {f.name}{arraySuffix f.length}{semantic};"

def helperParam (p : Parameter) : String :=
  s!"{passingWord p.passing}{typeName p.type} {p.name}{arraySuffix p.length}"

def entryParam (p : Parameter) : String :=
  match p.systemValue with
  | some v => s!"{typeName p.type} {p.name} : {v.semantic}"
  | none => s!"{typeName p.type} {p.name}"

/-- The semantic of a returned value that is not a struct. -/
def returnSemantic : List Varying → String
  | [⟨none, _, _, .system v, _⟩] => s!" : {v.semantic}"
  | _ => ""

def generate (options : EmitOptions) (u : ShaderUnit) : Except Failure Shader := do
  let model := (options.shaderModel.map fun m => s!"// shader model {m}").toList
  let structs := u.structs.flatMap fun d => structLines d.name (d.fields.map fieldText)
  let table ←
    match u.table with
    | some t => tableLines .direct3d12 false declaration "space" t
    | none => pure []
  let globals ← u.globals.mapM fun g => return (← globalText language u g.body) ++ ";"
  let helpers ← u.helpers.mapM fun h => functionLines language u h (h.params.map helperParam)
  let body ← entryBody language u
  let threads := (u.threads.map fun t => s!"[numthreads({t.x}, {t.y}, {t.z})]").toList
  let head := typeName u.entry.function.returns ++ " " ++
    callText "main" (u.entry.params.map entryParam) ++ returnSemantic u.interface.outputs
  return {
    source := ofLines ([headComment u] ++ model ++ ["#pragma pack_matrix(column_major)"] ++
      structs ++ table ++ paragraph globals ++ helpers.flatten ++
      [""] ++ threads ++ block head body "\x7d")
    info := .ofUnit u "main" .descriptorTables language.nonUniform (bindingsOf u slot) }

end ShaderDialect.Hlsl
