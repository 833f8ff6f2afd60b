import ShaderDialect.Json
import ShaderDialect.Text.Numeral

/-! Shader stages, and the values that the hardware hands to them or takes from them. -/
namespace ShaderDialect

inductive Stage
  | vertex | pixel | compute
  deriving Repr, DecidableEq, Inhabited

namespace Stage

def name : Stage → String
  | vertex => "vertex"
  | pixel => "pixel"
  | compute => "compute"

def ofEntryName? : String → Option Stage
  | "VS_MAIN" => some vertex
  | "PS_MAIN" | "FS_MAIN" => some pixel
  | "CS_MAIN" => some compute
  | _ => none

def ofBlockDirective? : String → Option Stage
  | "vert" => some vertex
  | "frag" => some pixel
  | "comp" => some compute
  | _ => none

def isGraphics (s : Stage) : Bool := s != compute

end Stage

inductive SystemValue
  | position
  | target (slot : Nat)
  | depth
  | vertexId
  | instanceId
  | primitiveId
  | isFrontFace
  | viewId
  | dispatchThreadId
  | groupThreadId
  | groupId
  | groupIndex
  deriving Repr, DecidableEq, Inhabited

namespace SystemValue

def named : List (String × SystemValue) :=
  [("POSITION", position), ("DEPTH", depth), ("VERTEXID", vertexId), ("INSTANCEID", instanceId),
    ("PRIMITIVEID", primitiveId), ("ISFRONTFACE", isFrontFace), ("VIEWID", viewId),
    ("DISPATCHTHREADID", dispatchThreadId), ("GROUPTHREADID", groupThreadId), ("GROUPID", groupId),
    ("GROUPINDEX", groupIndex)]

/-- The system value of a name such as `SV_Position`, in any case. The slot of a target is a decimal
number below 256, and 0 if it is left out. -/
def ofSemantic? (semantic : String) : Option SystemValue :=
  match semantic.toList.map Char.toUpper with
  | 'S' :: 'V' :: '_' :: 'T' :: 'A' :: 'R' :: 'G' :: 'E' :: 'T' :: slot =>
    if slot.isEmpty then some (target 0)
    else (Text.boundedNumeral? 10 256 (Text.dropPlus slot)).map target
  | 'S' :: 'V' :: '_' :: rest => named.lookup (String.ofList rest)
  | _ => none

/-- The canonical spelling of the semantic. -/
def semantic : SystemValue → String
  | position => "SV_Position"
  | target n => s!"SV_Target{n}"
  | depth => "SV_Depth"
  | vertexId => "SV_VertexID"
  | instanceId => "SV_InstanceID"
  | primitiveId => "SV_PrimitiveID"
  | isFrontFace => "SV_IsFrontFace"
  | viewId => "SV_ViewID"
  | dispatchThreadId => "SV_DispatchThreadID"
  | groupThreadId => "SV_GroupThreadID"
  | groupId => "SV_GroupID"
  | groupIndex => "SV_GroupIndex"

def toJson : SystemValue → Json
  | position => .str "Position"
  | target n => .obj [("Target", .nat n)]
  | depth => .str "Depth"
  | vertexId => .str "VertexId"
  | instanceId => .str "InstanceId"
  | primitiveId => .str "PrimitiveId"
  | isFrontFace => .str "IsFrontFace"
  | viewId => .str "ViewId"
  | dispatchThreadId => .str "DispatchThreadId"
  | groupThreadId => .str "GroupThreadId"
  | groupId => .str "GroupId"
  | groupIndex => .str "GroupIndex"

end SystemValue

/-- What a field of a stage interface carries, kept in upper case. -/
structure Semantic where
  text : String
  deriving Repr, DecidableEq, Inhabited

def Semantic.ofText (text : String) : Semantic := ⟨String.ofList (text.toList.map Char.toUpper)⟩

def Semantic.systemValue? (s : Semantic) : Option SystemValue := SystemValue.ofSemantic? s.text

end ShaderDialect
