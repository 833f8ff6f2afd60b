import ShaderDialect.Glsl.Shader
import ShaderDialect.Hlsl.Shader
import ShaderDialect.Msl.Shader
import ShaderDialect.ShaderFile

/-! From an output of a file to the shader for one target. -/
namespace ShaderDialect

def ShaderUnit.generate (u : ShaderUnit) (options : EmitOptions) : Except Failure Shader :=
  match u.target with
  | .direct3d12 => Hlsl.generate options u
  | .vulkan => Glsl.generate options u
  | .metal => Msl.generate options u

def ShaderFile.unit (f : ShaderFile) (signatures : RootSignatures) (o : Output) (target : Target) :
    Except Failure ShaderUnit :=
  ShaderUnit.ofOutput f.program f.tables signatures o target

def ShaderFile.shader (f : ShaderFile) (signatures : RootSignatures) (options : EmitOptions)
    (o : Output) (target : Target) : Except Failure Shader := do
  let u ← f.unit signatures o target
  u.generate options

end ShaderDialect
