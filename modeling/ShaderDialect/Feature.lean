/-! Optional features that a shader variant is generated with. -/
namespace ShaderDialect

inductive Feature
  | primId | rayTracing | multiview | vrs | icb | subgroupOps
  deriving Repr, DecidableEq, Inhabited

namespace Feature

def all : List Feature := [primId, rayTracing, multiview, vrs, icb, subgroupOps]

def symbol : Feature → String
  | primId => "FT_PRIM_ID"
  | rayTracing => "FT_RAYTRACING"
  | multiview => "FT_MULTIVIEW"
  | vrs => "FT_VRS"
  | icb => "FT_ICB"
  | subgroupOps => "FT_SUBGROUP_OPS"

def ofSymbol? (symbol : String) : Option Feature := all.find? (·.symbol == symbol)

def bit : Feature → Nat
  | primId => 0
  | rayTracing => 1
  | multiview => 2
  | vrs => 3
  | icb => 4
  | subgroupOps => 5

end Feature

/-- A set of features, one bit each. -/
structure FeatureSet where
  bits : BitVec 6
  deriving Repr, DecidableEq, Inhabited

namespace FeatureSet

def empty : FeatureSet := ⟨0⟩

def contains (s : FeatureSet) (f : Feature) : Bool := s.bits.getLsbD f.bit

def insert (s : FeatureSet) (f : Feature) : FeatureSet := ⟨s.bits ||| BitVec.twoPow 6 f.bit⟩

def ofList (fs : List Feature) : FeatureSet := fs.foldl insert empty

def isEmpty (s : FeatureSet) : Bool := s.bits == 0

def toNat (s : FeatureSet) : Nat := s.bits.toNat

/-- The set that a number stands for, if it has no other bits. -/
def ofNat? (n : Nat) : Option FeatureSet := if n < 64 then some ⟨BitVec.ofNat 6 n⟩ else none

def toList (s : FeatureSet) : List Feature := Feature.all.filter s.contains

def symbols (s : FeatureSet) : List String := s.toList.map Feature.symbol

/-- Whether a symbol of a source names a feature of the set. -/
def defines (s : FeatureSet) (symbol : String) : Bool :=
  match Feature.ofSymbol? symbol with
  | some f => s.contains f
  | none => false

def label (s : FeatureSet) : String := "+".intercalate s.symbols

end FeatureSet
end ShaderDialect
