import ShaderDialect.Json
import ShaderDialect.Path
import ShaderDialect.Target

/-! What a build tells about its inputs. -/
namespace ShaderDialect

inductive TargetStatus
  | built
  | failed (message : String)
  /-- The target had been given up before this input. -/
  | skipped (message : String)
  deriving Repr, DecidableEq

structure TargetReport where
  target : Target
  status : TargetStatus
  /-- The files that were written, in order. -/
  artifacts : List Path
  deriving Repr, DecidableEq

structure FileReport where
  input : Path
  /-- Whether it was skipped because nothing had changed. -/
  cached : Bool
  /-- What is wrong with the input for all targets. -/
  errors : List String
  /-- The files that describe its tables. -/
  reflection : List Path
  targets : List TargetReport
  deriving Repr, DecidableEq

structure BuildReport where
  /-- In the order of the inputs' paths. -/
  files : List FileReport
  /-- The targets that were given up, and why. -/
  disabled : List (Target × String)
  cancelled : Bool
  deriving Repr, DecidableEq

def TargetStatus.message? : TargetStatus → Option String
  | built => none
  | failed message | skipped message => some message

def TargetStatus.toJson : TargetStatus → Json
  | built => .obj [("state", .str "built")]
  | failed message => .obj [("state", .str "failed"), ("message", .str message)]
  | skipped message => .obj [("state", .str "skipped"), ("message", .str message)]

def TargetReport.toJson (r : TargetReport) : Json :=
  .obj [("target", .str r.target.name), ("status", r.status.toJson),
    ("artifacts", .arr (r.artifacts.map fun p => .str p.text))]

namespace FileReport

def start (input : Path) : FileReport := ⟨input, false, [], [], []⟩

def succeeded (r : FileReport) : Bool :=
  r.errors.isEmpty && r.targets.all (·.status == .built)

def targetArtifacts (r : FileReport) : List Path := r.targets.flatMap TargetReport.artifacts

def artifacts (r : FileReport) : List Path := r.reflection ++ r.targetArtifacts

def failures (r : FileReport) : List String :=
  r.errors.map (fun e => s!"{r.input}: {e}") ++
    r.targets.filterMap fun t => t.status.message?.map fun m => s!"{r.input} [{t.target.name}]: {m}"

def toJson (r : FileReport) : Json :=
  .obj [("input", .str r.input.text), ("cached", .bool r.cached),
    ("errors", .arr (r.errors.map .str)),
    ("reflection", .arr (r.reflection.map fun p => .str p.text)),
    ("targets", .arr (r.targets.map TargetReport.toJson))]

end FileReport

namespace BuildReport

def succeeded (r : BuildReport) : Bool := !r.cancelled && r.files.all FileReport.succeeded

def builtFiles (r : BuildReport) : Nat :=
  (r.files.filter fun f => !f.cached && f.succeeded).length

def cachedFiles (r : BuildReport) : Nat := (r.files.filter FileReport.cached).length

def failures (r : BuildReport) : List String := r.files.flatMap FileReport.failures

def toJson (r : BuildReport) : Json :=
  .obj [("files", .arr (r.files.map FileReport.toJson)),
    ("disabled_targets", .obj (r.disabled.map fun (t, m) => (t.name, .str m))),
    ("cancelled", .bool r.cancelled)]

end BuildReport
end ShaderDialect
