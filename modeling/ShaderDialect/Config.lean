import ShaderDialect.Emit.Shader

/-! What a project asks for: how it is built, and where it is served for reloading. -/
namespace ShaderDialect

/-- How one target is generated and compiled. -/
structure TargetOptions where
  /-- The compiler; without one it is looked for. -/
  compiler : Option Path
  descriptorIndexing : Bool
  argumentBuffers : Bool
  shaderModel : Option String
  extraArgs : List String
  deriving Repr, DecidableEq

namespace TargetOptions

def standard : TargetOptions := ⟨none, true, false, none, []⟩

def emitOptions (o : TargetOptions) : EmitOptions :=
  ⟨o.descriptorIndexing, o.argumentBuffers, o.shaderModel⟩

/-- With its keys in order. -/
def toJson (o : TargetOptions) : Json :=
  .obj [("argument_buffers", .bool o.argumentBuffers),
    ("compiler", .ofOption (fun p : Path => .str p.text) o.compiler),
    ("descriptor_indexing", .bool o.descriptorIndexing),
    ("extra_args", .arr (o.extraArgs.map .str)),
    ("shader_model", .ofOption .str o.shaderModel)]

end TargetOptions

structure BuildConfig where
  targets : List Target
  includePaths : List Path
  outDir : Path
  /-- Without one it is a directory in `outDir`. -/
  cacheDir : Option Path
  /-- How many files are built at the same time; 0 leaves it open. -/
  workers : Nat
  /-- Skip inputs that have been built before. -/
  incremental : Bool
  /-- Run the compilers of the targets. -/
  compile : Bool
  signatures : RootSignatures
  toolchain : List (Target × TargetOptions)
  deriving Repr, DecidableEq

namespace BuildConfig

def standard : BuildConfig :=
  { targets := Target.all
    includePaths := []
    outDir := ⟨"out"⟩
    cacheDir := none
    workers := 0
    incremental := false
    compile := true
    signatures := .standard
    toolchain := [] }

def cachePath (c : BuildConfig) : Path := c.cacheDir.getD (c.outDir.joinName ".fslcache")

def options (c : BuildConfig) (t : Target) : TargetOptions :=
  (c.toolchain.lookup t).getD .standard

def targetsByName : List Target := [.direct3d12, .metal, .vulkan]

/-- Everything that outputs depend on, in one text. -/
def arguments (c : BuildConfig) : String :=
  Json.compact <| .obj [("compile", .bool c.compile),
    ("compute_root_signature", .str c.signatures.compute),
    ("graphics_root_signature", .str c.signatures.graphics),
    ("include_paths", .arr (c.includePaths.map fun p => .str p.text)),
    ("out_dir", .str c.outDir.text),
    ("targets", .arr (c.targets.map fun t => .str t.name)),
    ("toolchain", .obj ((targetsByName.filter c.targets.contains).map fun t =>
      (t.name, (c.options t).toJson))),
    ("version", .str "0.1.0")]

end BuildConfig

structure ReloadConfig where
  bind : String
  tcpPort : Nat
  /-- Further projects by their names, as paths of their project files. -/
  projects : List (String × Path)
  deriving Repr, DecidableEq

def ReloadConfig.standard : ReloadConfig := ⟨"127.0.0.1", 6543, []⟩

def ReloadConfig.address (c : ReloadConfig) : String := s!"{c.bind}:{c.tcpPort}"

structure ProjectConfig where
  build : BuildConfig
  reload : ReloadConfig
  deriving Repr, DecidableEq

namespace ProjectConfig

def standard : ProjectConfig := ⟨.standard, .standard⟩

/-- A relative path starts from the base. -/
def resolve (base path : Path) : Path := if path.isAbsolute then path else base.join path

/-- A program that is named without a directory is not a path. -/
def resolveCompiler (base : Path) (o : TargetOptions) : TargetOptions :=
  { o with compiler := o.compiler.map fun p =>
      if 1 < p.components.length then resolve base p else p }

/-- Lets all relative paths start from the directory of the project file. -/
def resolvePaths (base : Path) (c : ProjectConfig) : ProjectConfig :=
  { build := { c.build with
      outDir := resolve base c.build.outDir
      includePaths := c.build.includePaths.map (resolve base)
      cacheDir := c.build.cacheDir.map (resolve base)
      toolchain := c.build.toolchain.map fun (t, o) => (t, resolveCompiler base o) }
    reload := { c.reload with
      projects := c.reload.projects.map fun (name, p) => (name, resolve base p) } }

end ProjectConfig
end ShaderDialect
