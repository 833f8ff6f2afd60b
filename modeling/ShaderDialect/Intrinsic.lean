import ShaderDialect.Target
import ShaderDialect.Text.Numeral

/-! Functions of the dialect that targets spell differently. -/
namespace ShaderDialect

inductive AtomicOp
  | add | and | or | xor | min | max | exchange | compareExchange | load | store
  deriving Repr, DecidableEq, Inhabited

namespace AtomicOp

def all : List AtomicOp :=
  [add, and, or, xor, min, max, exchange, compareExchange, load, store]

/-- What the spellings of all targets are built from. -/
def verb : AtomicOp → String
  | add => "Add"
  | and => "And"
  | or => "Or"
  | xor => "Xor"
  | min => "Min"
  | max => "Max"
  | exchange => "Exchange"
  | compareExchange => "CompareExchange"
  | load => "Load"
  | store => "Store"

def ofName? (name : String) : Option AtomicOp := all.find? fun op => "Atomic" ++ op.verb == name

end AtomicOp

/-- A piece of a spelling: text as it is, or an argument of the call. -/
inductive SpellingPart
  | text (s : String)
  | arg (position : Nat)
  deriving Repr, DecidableEq

/-- How a target spells a call: under another name, or in a form of its own. -/
inductive Spelling
  | name (s : String)
  | form (parts : List SpellingPart)
  deriving Repr, DecidableEq

def callText (name : String) (args : List String) : String :=
  name ++ "(" ++ ", ".intercalate args ++ ")"

/-- The text of a call with these arguments; an argument that is not there is left out. -/
def Spelling.apply (args : List String) : Spelling → String
  | name s => callText s args
  | form parts => String.join (parts.map fun
    | .text s => s
    | .arg n => (args[n]?).getD "")

structure Spellings where
  hlsl : Spelling
  glsl : Spelling
  msl : Spelling
  deriving Repr, DecidableEq

namespace Spellings

def ofTarget (s : Spellings) : Target → Spelling
  | .direct3d12 => s.hlsl
  | .vulkan => s.glsl
  | .metal => s.msl

def names (hlsl glsl msl : String) : Spellings := ⟨.name hlsl, .name glsl, .name msl⟩

def texts (hlsl glsl msl : String) : Spellings :=
  ⟨.form [.text hlsl], .form [.text glsl], .form [.text msl]⟩

def reciprocal : Spelling := .form [.text "(1.0 / ", .arg 0, .text ")"]

/-- The remainder with the sign of the dividend. -/
def remainder : Spelling :=
  .form [.text "(", .arg 0, .text " - ", .arg 1, .text " * trunc(", .arg 0, .text " / ", .arg 1,
    .text "))"]

/-- The functions that are only spelled differently. -/
def table : List (String × Spellings) :=
  [("lerp", names "lerp" "mix" "mix"),
    ("frac", names "frac" "fract" "fract"),
    ("saturate",
      ⟨.name "saturate", .form [.text "clamp(", .arg 0, .text ", 0.0, 1.0)"], .name "saturate"⟩),
    ("rsqrt", names "rsqrt" "inversesqrt" "rsqrt"),
    ("rcp", ⟨.name "rcp", reciprocal, reciprocal⟩),
    ("ddx", names "ddx" "dFdx" "dfdx"),
    ("ddy", names "ddy" "dFdy" "dfdy"),
    ("atan2", names "atan2" "atan" "atan2"),
    ("fmod", ⟨.name "fmod", remainder, .name "fmod"⟩),
    ("mad", names "mad" "fma" "fma"),
    ("GroupMemoryBarrierWithGroupSync",
      texts "GroupMemoryBarrierWithGroupSync()" "barrier()"
        "threadgroup_barrier(mem_flags::mem_threadgroup)"),
    ("DeviceMemoryBarrierWithGroupSync",
      texts "DeviceMemoryBarrierWithGroupSync()" "memoryBarrierBuffer(); barrier()"
        "threadgroup_barrier(mem_flags::mem_device)"),
    ("WaveActiveSum", names "WaveActiveSum" "subgroupAdd" "simd_sum"),
    ("WaveActiveProduct", names "WaveActiveProduct" "subgroupMul" "simd_product"),
    ("WaveActiveMin", names "WaveActiveMin" "subgroupMin" "simd_min"),
    ("WaveActiveMax", names "WaveActiveMax" "subgroupMax" "simd_max"),
    ("WaveActiveBitOr", names "WaveActiveBitOr" "subgroupOr" "simd_or"),
    ("WaveActiveAnyTrue", names "WaveActiveAnyTrue" "subgroupAny" "simd_any"),
    ("WaveActiveAllTrue", names "WaveActiveAllTrue" "subgroupAll" "simd_all"),
    ("WaveReadLaneFirst",
      names "WaveReadLaneFirst" "subgroupBroadcastFirst" "simd_broadcast_first"),
    ("WaveIsFirstLane", texts "WaveIsFirstLane()" "subgroupElect()" "simd_is_first()"),
    ("WavePrefixSum", names "WavePrefixSum" "subgroupExclusiveAdd" "simd_prefix_exclusive_sum")]

end Spellings

inductive Intrinsic
  | sample | sampleLvl | sampleCmp
  | loadRw | storeRw
  | atomic (op : AtomicOp)
  | nonUniformIndex
  | makeMatrix (size : Nat) (columns : Bool)
  | getCol | getRow | getElem
  | mul
  | respelled (spellings : Spellings)
  /-- An operation on waves that only some targets have. -/
  | otherWave
  deriving Repr, DecidableEq

namespace Intrinsic

def named : List (String × Intrinsic) :=
  [("Sample", sample), ("SampleLvl", sampleLvl), ("SampleCmp", sampleCmp), ("LoadRw", loadRw),
    ("StoreRw", storeRw), ("NonUniformResourceIndex", nonUniformIndex), ("getCol", getCol),
    ("getRow", getRow), ("getElem", getElem), ("mul", mul)]

/-- The size in a name such as `make_f4x4_cols`, whose two extents are written alike. -/
def matrixSize? (extents : List Char) : Option Nat :=
  match extents.span (· ≠ 'x') with
  | (columns, 'x' :: rows) =>
    if columns = rows then
      (Text.boundedNumeral? 10 256 columns).filter fun n => decide (2 ≤ n ∧ n ≤ 4)
    else none
  | _ => none

/-- A square matrix from its columns or from its rows. -/
def makeMatrix? (name : String) : Option Intrinsic :=
  match name.toList with
  | 'm' :: 'a' :: 'k' :: 'e' :: '_' :: 'f' :: rest =>
    match rest.span (· ≠ '_') with
    | (extents, '_' :: order) =>
      match String.ofList order with
      | "cols" => (matrixSize? extents).map (makeMatrix · true)
      | "rows" => (matrixSize? extents).map (makeMatrix · false)
      | _ => none
    | _ => none
  | _ => none

def ofName? (name : String) : Option Intrinsic :=
  named.lookup name <|>
    (AtomicOp.ofName? name).map atomic <|>
    (Spellings.table.lookup name).map respelled <|>
    makeMatrix? name <|>
    (if "Wave".toList.isPrefixOf name.toList then some otherWave else none)

/-- How many arguments a call may have; without an entry any number. -/
def arity : Intrinsic → List Nat
  | sample => [3]
  | sampleLvl | sampleCmp => [4]
  | loadRw => [2]
  | storeRw => [3]
  | atomic .compareExchange => [4]
  | atomic .load | atomic .store => [2]
  | atomic _ => [2, 3]
  | nonUniformIndex => [1]
  | makeMatrix size _ => [size]
  | getCol | getRow | mul => [2]
  | getElem => [3]
  | respelled _ | otherWave => []

def accepts (i : Intrinsic) (count : Nat) : Bool := i.arity.isEmpty || i.arity.contains count

end Intrinsic
end ShaderDialect
