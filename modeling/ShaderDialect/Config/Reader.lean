import ShaderDialect.Config
import ShaderDialect.FileTree
import ShaderDialect.Toml.Reader

/-! Reading project files. A setting that is left out has its standard value, and a setting that
does not exist is refused. -/
namespace ShaderDialect

namespace Toml

def text? : Toml → Option String
  | str s => some s
  | _ => none

def bool? : Toml → Option Bool
  | bool b => some b
  | _ => none

/-- A number from zero up to a bound. -/
def nat? (bound : Nat) : Toml → Option Nat
  | int n => if 0 ≤ n ∧ n < bound then some n.toNat else none
  | _ => none

def list? {α : Type} (f : Toml → Option α) : Toml → Option (List α)
  | arr vs => vs.mapM f
  | _ => none

def path? (v : Toml) : Option Path := v.text?.map Path.mk

/-- The key under which a date or time stands where a table is wanted. -/
def dateTimeKey : String := "$__toml_private_datetime"

/-- The fields of a table. A date or time passes for a table with its text as the only field. -/
def fields? : Toml → Option (List (String × Toml))
  | table fields => some fields
  | dateTime text => some [(dateTimeKey, str text)]
  | _ => none

/-- The settings of a record, where they are given: a table with no other keys, or an array of the
settings in order, of which any more elements do not count. -/
def settings? (keys : List String) : Toml → Option (List (Option Toml))
  | arr vs => some ((List.range keys.length).map fun i => vs[i]?)
  | v => do
    let fields ← v.fields?
    if fields.all fun (key, _) => keys.contains key then
      some (keys.map fun key => fields.lookup key)
    else none

def orElse {α : Type} (standard : α) (f : Toml → Option α) : Option Toml → Option α
  | none => some standard
  | some v => f v

def optional {α : Type} (f : Toml → Option α) : Option Toml → Option (Option α) :=
  orElse none fun v => (f v).map some

/-- A target by its name, which may be the only key of a table with nothing in it. -/
def target? : Toml → Option Target
  | str s => Target.ofName? s
  | table [(name, table [])] | table [(name, arr [])] => Target.ofName? name
  | _ => none

end Toml

open Toml

def TargetOptions.ofToml? (v : Toml) : Option TargetOptions := do
  let [compiler, indexing, buffers, model, extra] ← v.settings?
    ["compiler", "descriptor_indexing", "argument_buffers", "shader_model", "extra_args"] | none
  return {
    compiler := ← optional path? compiler
    descriptorIndexing := ← orElse standard.descriptorIndexing bool? indexing
    argumentBuffers := ← orElse standard.argumentBuffers bool? buffers
    shaderModel := ← optional text? model
    extraArgs := ← orElse standard.extraArgs (list? text?) extra }

namespace BuildConfig

/-- The options of each target that a table names. -/
def toolchain? (v : Toml) : Option (List (Target × TargetOptions)) := do
  (← v.fields?).mapM fun (name, v) => do
    return (← Target.ofName? name, ← TargetOptions.ofToml? v)

def keys : List String :=
  ["targets", "include_paths", "out_dir", "cache_dir", "workers", "incremental", "compile",
    "graphics_root_signature", "compute_root_signature", "toolchain"]

def ofToml? (v : Toml) : Option BuildConfig := do
  let [targets, includePaths, outDir, cacheDir, workers, incremental, compile, graphics, compute,
    toolchain] ← v.settings? keys | none
  return {
    targets := ← orElse standard.targets (list? target?) targets
    includePaths := ← orElse standard.includePaths (list? path?) includePaths
    outDir := ← orElse standard.outDir path? outDir
    cacheDir := ← optional path? cacheDir
    workers := ← orElse standard.workers (nat? (1 <<< 63)) workers
    incremental := ← orElse standard.incremental bool? incremental
    compile := ← orElse standard.compile bool? compile
    signatures := {
      graphics := ← orElse standard.signatures.graphics text? graphics
      compute := ← orElse standard.signatures.compute text? compute }
    toolchain := ← orElse standard.toolchain toolchain? toolchain }

end BuildConfig

/-- Projects in the order of their names. -/
def ReloadConfig.projects? (v : Toml) : Option (List (String × Path)) := do
  let projects ← (← v.fields?).mapM fun (name, v) => return (name, ← path? v)
  return (Text.sortNames (projects.map (·.1))).filterMap fun name =>
    (projects.lookup name).map (name, ·)

def ReloadConfig.ofToml? (v : Toml) : Option ReloadConfig := do
  let [bind, tcpPort, projects] ← v.settings? ["bind", "port", "projects"] | none
  return {
    bind := ← orElse standard.bind text? bind
    tcpPort := ← orElse standard.tcpPort (nat? (1 <<< 16)) tcpPort
    projects := ← orElse standard.projects projects? projects }

namespace ProjectConfig

def ofToml? (v : Toml) : Option ProjectConfig := do
  let [build, reload] ← v.settings? ["build", "reload"] | none
  return {
    build := ← orElse standard.build BuildConfig.ofToml? build
    reload := ← orElse standard.reload ReloadConfig.ofToml? reload }

def fault? (c : ProjectConfig) : Option ConfigFault :=
  let isEmpty (name : String) : Bool := (Text.trim name).isEmpty
  if c.build.targets.isEmpty then some .noTargets
  else if isEmpty c.build.signatures.graphics || isEmpty c.build.signatures.compute then
    some .emptySignature
  else none

def ofText (text : String) : Except ConfigFault ProjectConfig :=
  match (Toml.read? text).bind ofToml? with
  | none => .error .unreadable
  | some c =>
    match c.fault? with
    | some fault => .error fault
    | none => .ok c

/-- A project file, whose relative paths start from its directory. -/
def load (tree : FileTree) (path : Path) : Except Failure ProjectConfig :=
  match tree.readText path with
  | .error e => .error (.pathIo path e)
  | .ok text =>
    match ofText text with
    | .error fault => .error (.config (some path) fault)
    | .ok c =>
      match path.parent? with
      | some base => .ok (c.resolvePaths base)
      | none => .ok c

end ProjectConfig
end ShaderDialect
