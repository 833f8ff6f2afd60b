import ShaderDialect.Json
import ShaderDialect.Json.Tree
import ShaderDialect.Path
import ShaderDialect.Text.Base64

/-! Asking a server to build files again: what is asked, and what is answered. -/
namespace ShaderDialect

structure ReloadRequest where
  project : String
  paths : List Path
  deriving Repr, DecidableEq

structure Artifact where
  path : String
  bytes : List UInt8
  deriving Repr, DecidableEq

structure ReloadResponse where
  success : Bool
  artifacts : List Artifact
  error : Option String
  deriving Repr, DecidableEq

namespace ReloadRequest

def toJson (r : ReloadRequest) : Json :=
  .obj [("project", .str r.project), ("paths", .arr (r.paths.map fun p => .str p.text))]

def ofTree? (t : JsonTree) : Option ReloadRequest := do
  let [some project, some paths] ← t.record? ["project", "paths"] | none
  return { project := ← project.text?, paths := (← paths.texts?).map Path.mk }

def toBytes (r : ReloadRequest) : List UInt8 := Text.utf8 r.toJson.compact

def ofBytes? (bytes : List UInt8) : Option ReloadRequest := (JsonTree.read? bytes).bind ofTree?

end ReloadRequest

def Artifact.toJson (a : Artifact) : Json :=
  .obj [("path", .str a.path), ("bytes", .str (Text.base64 a.bytes))]

def Artifact.ofTree? (t : JsonTree) : Option Artifact := do
  let [some path, some bytes] ← t.record? ["path", "bytes"] | none
  return { path := ← path.text?, bytes := ← Text.base64Decode? (← bytes.text?).toList }

namespace ReloadResponse

def failed (message : String) : ReloadResponse := ⟨false, [], some message⟩

def toJson (r : ReloadResponse) : Json :=
  .obj [("success", .bool r.success), ("artifacts", .arr (r.artifacts.map Artifact.toJson)),
    ("error", .ofOption .str r.error)]

/-- The reason of a failure, which may be left out. -/
def error? : Option JsonTree → Option (Option String)
  | none | some .null => some none
  | some t => t.text?.map some

def ofTree? (t : JsonTree) : Option ReloadResponse := do
  let [some success, some artifacts, error] ← t.record? ["success", "artifacts", "error"] | none
  let .bool success := success | none
  return {
    success
    artifacts := ← (← artifacts.list?).mapM Artifact.ofTree?
    error := ← error? error }

def toBytes (r : ReloadResponse) : List UInt8 := Text.utf8 r.toJson.compact

def ofBytes? (bytes : List UInt8) : Option ReloadResponse := (JsonTree.read? bytes).bind ofTree?

end ReloadResponse
end ShaderDialect
