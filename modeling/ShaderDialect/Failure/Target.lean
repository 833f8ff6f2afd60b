import ShaderDialect.Target
import ShaderDialect.Token
import ShaderDialect.ValueType

/-! What a target cannot express, and what its tools cannot do. -/
namespace ShaderDialect

/-- Why an operation of a valid program cannot be generated for a target. -/
inductive TargetFault
  | atomicAccess (loc : Loc)
  | constantBufferArray (name : String)
  | multisampled (loc : Loc)
  | comparisonShape (loc : Loc)
  | imageFormat (elem : ValueType) (name : String)
  | bufferArrayBlock (name : String)
  | depthShape (name : String)
  | bufferArrayParameter (name : String)
  | texelShape (loc : Loc)
  | groupsharedStage (name : String) (loc : Loc)
  | groupsharedHelper (name : String) (loc : Loc)
  | mutableGlobal (loc : Loc)
  | nonUniformHeader (loc : Loc)
  | notResourceArray (name : String) (loc : Loc)
  | noEquivalent (target : Target) (loc : Loc)
  deriving Repr, DecidableEq

def TargetFault.message : TargetFault → String
  | atomicAccess loc =>
    "HLSL has no plain atomic load or store; use AtomicAdd with 0 or AtomicExchange " ++
      s!"(at {loc})"
  | constantBufferArray name => s!"constant buffer array '{name}' needs a struct element type"
  | multisampled loc => s!"multisampled textures cannot be sampled (at {loc})"
  | comparisonShape loc =>
    s!"comparison sampling needs a 2D, 2D array or cube texture (at {loc})"
  | imageFormat elem name => s!"no storage image format for '{elem.name}' elements of '{name}'"
  | bufferArrayBlock name =>
    s!"'{name}' is an array of buffers, which Vulkan GLSL cannot bind as one declaration"
  | depthShape name =>
    s!"'{name}' is compared but only 2D, 2D array and cube depth textures exist"
  | bufferArrayParameter name =>
    s!"'{name}' is an array of buffers, which Metal cannot bind as one parameter"
  | texelShape loc => s!"texel access needs a 1D, 2D or 3D image (at {loc})"
  | groupsharedStage name loc => s!"'{name}' at {loc} outside a compute shader"
  | groupsharedHelper name loc =>
    s!"'{name}' at {loc} is used by a helper; " ++
      "Metal threadgroup memory is declared in the kernel"
  | mutableGlobal loc =>
    s!"mutable program-scope variable at {loc} (declare it const or groupshared)"
  | nonUniformHeader loc =>
    s!"non-uniform indexing in a control-flow header at {loc} needs descriptor indexing"
  | notResourceArray name loc => s!"'{name}' at {loc} is not a resource array"
  | noEquivalent target loc => s!"no {target.name} equivalent (at {loc})"

end ShaderDialect
