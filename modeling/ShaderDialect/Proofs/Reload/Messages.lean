import ShaderDialect.Proofs.Json.Compact
import ShaderDialect.Proofs.Text.Base64
import ShaderDialect.Reload

/-! Requests and responses as bytes: each is read back as it was sent, and its length follows from
its parts. Of an artifact three bytes take four characters, and of a text some characters are
escaped. -/
namespace ShaderDialect
open List

namespace JsonTree

theorem length_raw_base64 (bytes : List UInt8) :
    (raw (Text.base64 bytes)).length = 4 * ((bytes.length + 2) / 3) := by
  have hdigit : ∀ n < 64, (escapedBytes (Text.base64Digit n)).length = 1 := by decide
  have hpad : (escapedBytes '=').length = 1 := by decide
  have hone : ∀ c ∈ Text.base64Chars bytes, (escapedBytes c).length = 1 := by
    intro c hc
    obtain ⟨n, hn, rfl⟩ | rfl := Text.mem_base64Chars hc
    · exact hdigit n hn
    · exact hpad
  rw [raw, Text.base64, String.toList_ofList, length_flatMap,
    map_congr_left (g := fun _ => 1) hone, map_const', sum_replicate_nat,
    Nat.mul_one, Text.length_base64Chars]

theorem raw_append (s t : String) : raw (s ++ t) = raw s ++ raw t := by
  simp [raw, String.toList_append]

theorem length_raw_replicate {c : Char} (h : (escapedBytes c).length = 1) (n : Nat) :
    (raw (String.ofList (List.replicate n c))).length = n := by
  simp [raw, length_flatMap, h]

end JsonTree

open JsonTree

namespace ReloadRequest

def tree (r : ReloadRequest) : JsonTree :=
  .obj [(raw "project", .str (raw r.project)),
    (raw "paths", .arr (r.paths.map fun p => .str (raw p.text)))]

theorem reads_toBytes (r : ReloadRequest) : Reads r.toBytes r.tree := by
  have hfields : ∀ field ∈ [("project", Json.str r.project, JsonTree.str (raw r.project)),
      ("paths", Json.arr (r.paths.map fun p => .str p.text),
        JsonTree.arr (r.paths.map fun p => .str (raw p.text)))],
      Reads (Text.utf8 field.2.1.compact) field.2.2 := by
    simp only [forall_mem_cons, not_mem_nil, false_implies, implies_true, and_true]
    exact ⟨reads_compact_str _, reads_compact_arr fun p _ => reads_compact_str p.text⟩
  have hread := reads_compact_obj Prod.fst hfields
  simp only [map_cons, map_nil] at hread
  exact hread

theorem ofBytes?_toBytes (r : ReloadRequest) : ofBytes? r.toBytes = some r := by
  rw [ofBytes?, read?_of_reads r.reads_toBytes, Option.bind_some]
  simp [ofTree?, tree, record?, member?, text?, decode?_raw, texts?_map, Function.comp_def]

theorem length_toBytes (r : ReloadRequest) :
    r.toBytes.length = 25 + (raw r.project).length +
      ((r.paths.map fun p => (raw p.text).length + 2).sum + (r.paths.length - 1)) := by
  have hproject : (raw "project").length = 7 := by decide
  have hpaths : (raw "paths").length = 5 := by decide
  simp only [toBytes, toJson, length_compact_obj, map_cons, map_nil, sum_cons,
    sum_nil, length_cons, length_nil, length_compact_str, length_compact_arr,
    map_map, Function.comp_def, length_map, hproject, hpaths]
  omega

end ReloadRequest

namespace Artifact
variable (a : Artifact)

def tree (a : Artifact) : JsonTree :=
  .obj [(raw "path", .str (raw a.path)), (raw "bytes", .str (raw (Text.base64 a.bytes)))]

theorem reads_compact : Reads (Text.utf8 a.toJson.compact) a.tree := by
  have hfields : ∀ field ∈ [("path", Json.str a.path, JsonTree.str (raw a.path)),
      ("bytes", Json.str (Text.base64 a.bytes), JsonTree.str (raw (Text.base64 a.bytes)))],
      Reads (Text.utf8 field.2.1.compact) field.2.2 := by
    simp only [forall_mem_cons, not_mem_nil, false_implies, implies_true, and_true]
    exact ⟨reads_compact_str _, reads_compact_str _⟩
  have hread := reads_compact_obj Prod.fst hfields
  simp only [map_cons, map_nil] at hread
  exact hread

theorem ofTree?_tree : ofTree? a.tree = some a := by
  simp [ofTree?, tree, record?, member?, text?, decode?_raw, Text.base64, Text.base64Decode?_chars]

def size (a : Artifact) : Nat := (raw a.path).length + 4 * ((a.bytes.length + 2) / 3) + 22

theorem length_compact : (Text.utf8 a.toJson.compact).length = a.size := by
  have hpath : (raw "path").length = 4 := by decide
  have hbytes : (raw "bytes").length = 5 := by decide
  simp only [toJson, length_compact_obj, map_cons, map_nil, sum_cons, sum_nil,
    length_cons, length_nil, length_compact_str, length_raw_base64, hpath, hbytes, size]
  omega

end Artifact

namespace ReloadResponse
variable (error : Option String) (r : ReloadResponse)

def errorTree : Option String → JsonTree
  | none => .null
  | some message => .str (raw message)

def tree (r : ReloadResponse) : JsonTree :=
  .obj [(raw "success", .bool r.success), (raw "artifacts", .arr (r.artifacts.map Artifact.tree)),
    (raw "error", errorTree r.error)]

theorem reads_compact_error :
    Reads (Text.utf8 (Json.ofOption .str error).compact) (errorTree error) := by
  cases error with
  | none => exact reads_compact_null
  | some message => exact reads_compact_str message

theorem reads_toBytes : Reads r.toBytes r.tree := by
  have hfields : ∀ field ∈ [("success", Json.bool r.success, JsonTree.bool r.success),
      ("artifacts", Json.arr (r.artifacts.map Artifact.toJson),
        JsonTree.arr (r.artifacts.map Artifact.tree)),
      ("error", Json.ofOption .str r.error, errorTree r.error)],
      Reads (Text.utf8 field.2.1.compact) field.2.2 := by
    simp only [forall_mem_cons, not_mem_nil, false_implies, implies_true, and_true]
    exact ⟨reads_compact_bool _, reads_compact_arr fun a _ => a.reads_compact,
      reads_compact_error _⟩
  have hread := reads_compact_obj Prod.fst hfields
  simp only [map_cons, map_nil] at hread
  exact hread

theorem error?_errorTree : error? (some (errorTree error)) = some error := by
  cases error with
  | none => rfl
  | some message => simp [error?, errorTree, text?, decode?_raw]

theorem mapM_ofTree?_tree (artifacts : List Artifact) :
    artifacts.mapM (Artifact.ofTree? ∘ Artifact.tree) = some artifacts := by
  induction artifacts with
  | nil => rfl
  | cons a artifacts ih => simp [Artifact.ofTree?_tree, ih]

theorem ofBytes?_toBytes : ofBytes? r.toBytes = some r := by
  rw [ofBytes?, read?_of_reads r.reads_toBytes, Option.bind_some]
  simp [ofTree?, tree, record?, member?, decode?_raw, list?, mapM_ofTree?_tree, error?_errorTree]

/-- The bytes that the reason of a failure takes: `null`, or the message in quotes. -/
def errorSize : Option String → Nat
  | none => 4
  | some message => (raw message).length + 2

def size (r : ReloadResponse) : Nat :=
  36 + (if r.success then 4 else 5) +
    ((r.artifacts.map fun a => a.size).sum + (r.artifacts.length - 1)) + errorSize r.error

theorem length_compact_error :
    (Text.utf8 (Json.ofOption .str error).compact).length = errorSize error := by
  cases error with
  | none => decide
  | some message => exact length_compact_str message

theorem length_compact_bool (b : Bool) :
    (Text.utf8 (Json.bool b).compact).length = if b then 4 else 5 := by
  cases b with
  | true => decide
  | false => decide

theorem length_toBytes : r.toBytes.length = r.size := by
  have hsuccess : (raw "success").length = 7 := by decide
  have hartifacts : (raw "artifacts").length = 9 := by decide
  have herror : (raw "error").length = 5 := by decide
  simp only [toBytes, toJson, length_compact_obj, map_cons, map_nil, sum_cons,
    sum_nil, length_cons, length_nil, length_compact_bool, length_compact_arr,
    map_map, Function.comp_def, Artifact.length_compact, length_map,
    length_compact_error, hsuccess, hartifacts, herror, size]
  omega

end ReloadResponse
end ShaderDialect
