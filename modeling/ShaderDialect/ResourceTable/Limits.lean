import ShaderDialect.Failure
import ShaderDialect.ResourceTable

/-! How many resources a target can bind without an extension that lifts its limits. -/
namespace ShaderDialect

/-- Resources that a target counts together. -/
structure LimitedKind where
  label : String
  counts : ResourceKind → Bool
  ceiling : Nat

namespace ResourceKind

def isTexture : ResourceKind → Bool
  | texture _ _ => true
  | _ => false

def isRwTexture : ResourceKind → Bool
  | rwTexture _ _ => true
  | _ => false

def isBuffer : ResourceKind → Bool
  | buffer _ => true
  | _ => false

def isRwBuffer : ResourceKind → Bool
  | rwBuffer _ => true
  | _ => false

def isConstantBuffer : ResourceKind → Bool
  | constantBuffer _ => true
  | _ => false

end ResourceKind

open ResourceKind in
def Target.limitedKinds : Target → List LimitedKind
  | direct3d12 =>
    [⟨"samplers", isSampler, 16⟩,
      ⟨"shader resource views", fun k => k.isTexture || k.isBuffer, 128⟩,
      ⟨"unordered access views", fun k => k.isRwTexture || k.isRwBuffer, 64⟩,
      ⟨"constant buffer views", isConstantBuffer, 14⟩]
  | vulkan =>
    [⟨"samplers", isSampler, 64⟩,
      ⟨"uniform buffers", isConstantBuffer, 15⟩,
      ⟨"storage buffers", fun k => k.isBuffer || k.isRwBuffer, 30⟩,
      ⟨"sampled images", isTexture, 200⟩,
      ⟨"storage images", isRwTexture, 16⟩]
  | metal =>
    [⟨"textures", fun k => k.isTexture || k.isRwTexture, 128⟩,
      ⟨"buffers", fun k => k.isBuffer || k.isRwBuffer || k.isConstantBuffer, 31⟩,
      ⟨"samplers", isSampler, 16⟩]

namespace ResourceTable

/-- The largest count that is told apart from larger ones. -/
def maxCount : Nat := 1 <<< 32 - 1

/-- How many indices the resources of a table take, of the kinds that are counted together. -/
def countOf (t : ResourceTable) (k : LimitedKind) : Nat :=
  min maxCount ((t.resources.filter fun r => k.counts r.2.kind).foldr (·.2.length + ·) 0)

/-- A table fits if it stays within all limits of the target, or if they are lifted. -/
def checkLimits (t : ResourceTable) (target : Target) (lifted : Bool) : Except Failure Unit :=
  if lifted then .ok ()
  else
    match target.limitedKinds.find? fun k => k.ceiling < t.countOf k with
    | some k => .error (.program t.name (.limit (t.countOf k) k.label target k.ceiling))
    | none => .ok ()

end ResourceTable
end ShaderDialect
