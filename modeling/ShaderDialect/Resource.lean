import ShaderDialect.ValueType

/-! Bindable resources, and how often their sets are rebound. -/
namespace ShaderDialect

/-- Sets are grouped by how often they change; the index is the set's slot on every target. -/
inductive Frequency
  | persistent | perFrame | perBatch | perDraw
  deriving Repr, DecidableEq, Inhabited

namespace Frequency

def all : List Frequency := [persistent, perFrame, perBatch, perDraw]

def index : Frequency → Nat
  | persistent => 0
  | perFrame => 1
  | perBatch => 2
  | perDraw => 3

def name : Frequency → String
  | persistent => "Persistent"
  | perFrame => "PerFrame"
  | perBatch => "PerBatch"
  | perDraw => "PerDraw"

def ofName? (name : String) : Option Frequency := all.find? (·.name == name)

end Frequency

inductive TextureShape
  | tex1D | tex2D | tex2DArray | tex2DMS | tex3D | texCube
  deriving Repr, DecidableEq, Inhabited

namespace TextureShape

def all : List TextureShape := [tex1D, tex2D, tex2DArray, tex2DMS, tex3D, texCube]

def name : TextureShape → String
  | tex1D => "Tex1D"
  | tex2D => "Tex2D"
  | tex2DArray => "Tex2DArray"
  | tex2DMS => "Tex2DMS"
  | tex3D => "Tex3D"
  | texCube => "TexCube"

/-- The shape of a texture type's name, and whether the type is a writable one. -/
def ofName? (name : String) : Option (TextureShape × Bool) :=
  match name.toList with
  | 'R' :: 'W' :: base => (all.find? (·.name == String.ofList base)).map (·, true)
  | _ => (all.find? (·.name == name)).map (·, false)

/-- How many integers address a texel. -/
def texelCoordinates : TextureShape → Nat
  | tex1D => 1
  | tex2D | tex2DMS => 2
  | tex2DArray | tex3D | texCube => 3

end TextureShape

inductive ResourceKind
  | sampler (comparison : Bool)
  | texture (shape : TextureShape) (elem : ValueType)
  | rwTexture (shape : TextureShape) (elem : ValueType)
  | buffer (elem : ValueType)
  | rwBuffer (elem : ValueType)
  | constantBuffer (elem : ValueType)
  deriving Repr, DecidableEq, Inhabited

namespace ResourceKind

def isReadWrite : ResourceKind → Bool
  | rwTexture _ _ | rwBuffer _ => true
  | _ => false

def isSampler : ResourceKind → Bool
  | sampler _ => true
  | _ => false

def shape? : ResourceKind → Option TextureShape
  | texture s _ | rwTexture s _ => some s
  | _ => none

def elem? : ResourceKind → Option ValueType
  | sampler _ => none
  | texture _ e | rwTexture _ e | buffer e | rwBuffer e | constantBuffer e => some e

def label : ResourceKind → String
  | sampler _ => "sampler"
  | texture _ _ => "texture"
  | rwTexture _ _ => "rw-texture"
  | buffer _ => "buffer"
  | rwBuffer _ => "rw-buffer"
  | constantBuffer _ => "constant-buffer"

def toJson : ResourceKind → Json
  | sampler c => .obj [("Sampler", .obj [("comparison", .bool c)])]
  | texture s e => .obj [("Texture", .obj [("dim", .str s.name), ("elem", e.toJson)])]
  | rwTexture s e => .obj [("RwTexture", .obj [("dim", .str s.name), ("elem", e.toJson)])]
  | buffer e => .obj [("Buffer", .obj [("elem", e.toJson)])]
  | rwBuffer e => .obj [("RwBuffer", .obj [("elem", e.toJson)])]
  | constantBuffer e => .obj [("ConstantBuffer", .obj [("elem", e.toJson)])]

end ResourceKind
end ShaderDialect
