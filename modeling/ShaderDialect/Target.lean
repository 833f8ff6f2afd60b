import ShaderDialect.Text.Blank

/-! The platforms that shaders are generated for. -/
namespace ShaderDialect

inductive Target
  | direct3d12 | vulkan | metal
  deriving Repr, DecidableEq, Inhabited

namespace Target

def all : List Target := [direct3d12, vulkan, metal]

def name : Target → String
  | direct3d12 => "direct3d12"
  | vulkan => "vulkan"
  | metal => "metal"

def ofName? (name : String) : Option Target := all.find? (·.name == name)

/-- The symbol that is defined while generating for the target. -/
def symbol : Target → String
  | direct3d12 => "DIRECT3D12"
  | vulkan => "VULKAN"
  | metal => "METAL"

/-- The number that stands for the target in variant containers. -/
def code : Target → Nat
  | direct3d12 => 1
  | vulkan => 2
  | metal => 3

def ofCode? (code : Nat) : Option Target := all.find? (·.code == code)

def sourceExtension : Target → String
  | direct3d12 => "hlsl"
  | vulkan => "glsl"
  | metal => "metal"

def binaryExtension : Target → String
  | direct3d12 => "dxil"
  | vulkan => "spv"
  | metal => "metallib"

/-- Accepted spellings, in lower case. -/
def aliases : List (String × Target) :=
  [("direct3d12", direct3d12), ("d3d12", direct3d12), ("dx12", direct3d12), ("vulkan", vulkan),
    ("vk", vulkan), ("metal", metal), ("mtl", metal)]

/-- The target of a spelling in any case; fails with the lower-case spelling. -/
def ofAlias (word : String) : Except String Target :=
  let key := String.ofList (word.toList.map Char.toLower)
  match aliases.lookup key with
  | some t => .ok t
  | none => .error key

/-- A list of spellings separated by commas, or `all`; fails with the first unknown spelling. -/
def parseList (text : String) : Except String (List Target) :=
  if text.toList.map Char.toLower = "all".toList then .ok all
  else (Text.splitAt ',' text.toList).mapM fun part => ofAlias (String.ofList (Text.trimChars part))

/-- What a list that cannot be read is reported as. -/
def unknownMessage (spelling : String) : String := s!"unknown target '{spelling}'"

end Target

/-- How a target groups resources. -/
inductive BindingModel
  | descriptorTables | descriptorSets | argumentBuffers | directBinding
  deriving Repr, DecidableEq

def BindingModel.name : BindingModel → String
  | descriptorTables => "descriptor-tables"
  | descriptorSets => "descriptor-sets"
  | argumentBuffers => "argument-buffers"
  | directBinding => "direct-binding"

end ShaderDialect
