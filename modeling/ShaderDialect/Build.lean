import ShaderDialect.Build.Report
import ShaderDialect.Cache
import ShaderDialect.Config
import ShaderDialect.Generate
import ShaderDialect.Tool.Compile
import ShaderDialect.VariantContainer

/-! Building inputs for all targets of a configuration: sources and their descriptions, compiled
shaders, containers of variants, and descriptions of tables. A fault in an input stops the input, a
fault for one target stops that target of that input, and a missing tool stops its target for the
rest of the build. -/
namespace ShaderDialect

structure BuildState where
  tree : FileTree
  /-- The targets that have been given up, and why. -/
  disabled : List (Target × String)
  /-- Whether the build has been asked to stop. -/
  cancelled : Bool
  /-- What has been handed to compilers, in order. -/
  requests : List (Target × CompileRequest)

structure FileWork where
  build : BuildState
  report : FileReport
  /-- The files that have been written for the present target. -/
  artifacts : List Path

/-- Work that a failure stops; what has been done before remains. -/
abbrev Building (α : Type) := ExceptT Failure (StateM FileWork) α

structure Builder where
  config : BuildConfig
  compilers : List (Target × Compiler)

namespace Builder
variable (b : Builder)

def cache : BuildCache := ⟨b.config.cachePath⟩

/-- The fingerprint of what outputs depend on besides the inputs. -/
def arguments : String := Fingerprint.ofText b.config.arguments

def reflectionDir : Path := b.config.outDir.joinName "reflection"

def checkCancelled : Building Unit := do
  if (← get).build.cancelled then throw .cancelled

def setTree (tree : FileTree) : Building Unit :=
  modify fun w => { w with build := { w.build with tree } }

def place (path : Path) (content : List UInt8) : Building Unit := do
  match (← get).build.tree.place path content with
  | .ok tree => setTree tree
  | .error e => throw e

/-- Gives up a target for the rest of the build. -/
def disable (target : Target) (why : Failure) : Building Unit :=
  modify fun w => { w with build := { w.build with
    disabled := w.build.disabled.filter (·.1 != target) ++ [(target, why.message)] } }

/-- Compiles a shader; a tool that is not there is not asked again. -/
def compile (f : ShaderFile) (o : Output) (target : Target) (s : Shader) :
    Building (List UInt8) := do
  let some compiler := b.compilers.lookup target | throw (.environment target .noCompiler)
  let options := b.config.options target
  let request : CompileRequest :=
    { label := s!"{f.source.name}:{o.name}"
      stage := o.stage
      entry := s.info.entry
      source := s.source
      shaderModel := options.shaderModel
      extraArgs := options.extraArgs }
  let outcome := compiler (← get).build.tree request
  modify fun w => { w with build := { w.build with
    tree := outcome.tree
    cancelled := w.build.cancelled || outcome.cancelled
    requests := w.build.requests ++ [(target, request)] } }
  match outcome.result with
  | .ok bytes => return bytes
  | .error e =>
    match e with
    | .environment _ _ => disable target e
    | _ => pure ()
    throw e

def targetDir (target : Target) : Path := b.config.outDir.joinName target.name

/-- The name of a variant's files without their endings. -/
def variantStem (name : String) (features : FeatureSet) : String :=
  if features.isEmpty then name else s!"{name}.{features.label}"

def addArtifacts (paths : List Path) : Building Unit :=
  modify fun w => { w with artifacts := w.artifacts ++ paths }

/-- Writes the source of an output and its description, and adds the variant to a container. -/
def buildVariant (f : ShaderFile) (target : Target) (c : VariantContainer) (o : Output) :
    Building VariantContainer := do
  checkCancelled
  let options := (b.config.options target).emitOptions
  let shader ← ExceptT.mk (pure (f.shader b.config.signatures options o target))
  let stem := variantStem o.name o.features
  let sourcePath := (b.targetDir target).joinName s!"{stem}.{target.sourceExtension}"
  let infoPath := (b.targetDir target).joinName s!"{stem}.meta.json"
  place sourcePath (Text.utf8 shader.source)
  place infoPath (Text.utf8 shader.info.toJson.pretty)
  addArtifacts [sourcePath, infoPath]
  let bytes ←
    if b.config.compile then do
      checkCancelled
      b.compile f o target shader
    else pure (Text.utf8 shader.source)
  match c.insert { target, features := o.features, bytes } with
  | .ok c => return c
  | .error e => throw (.container e)

/-- Builds the outputs of one name. A single output without features is written as it is, if it is
compiled; several are put into a container. -/
def buildGroup (f : ShaderFile) (target : Target) (name : String) (os : List Output) :
    Building Unit := do
  let container ← os.foldlM (b.buildVariant f target) .empty
  let single :=
    match os with
    | [o] => o.features.isEmpty
    | _ => false
  if single then
    if b.config.compile then
      for v in container.variants.take 1 do
        let path := (b.targetDir target).joinName s!"{name}.{target.binaryExtension}"
        place path v.bytes
        addArtifacts [path]
  else
    let path := (b.targetDir target).joinName s!"{name}.fslv"
    place path container.toBytes
    addArtifacts [path]

def buildTarget (f : ShaderFile) (os : List Output) (target : Target) : Building Unit :=
  (Text.nameSet (os.map Output.name)).forM fun name =>
    b.buildGroup f target name (os.filter (·.name == name))

def addTarget (r : TargetReport) : Building Unit :=
  modify fun w => { w with report := { w.report with targets := w.report.targets ++ [r] } }

/-- Builds a target unless it has been given up. -/
def reportTarget (f : ShaderFile) (os : List Output) (target : Target) : Building Unit := do
  match (← get).build.disabled.lookup target with
  | some reason => addTarget ⟨target, .skipped reason, []⟩
  | none =>
    modify fun w => { w with artifacts := [] }
    let status ← try
        b.buildTarget f os target
        pure TargetStatus.built
      catch e => pure (.failed e.message)
    addTarget ⟨target, status, (← get).artifacts⟩

def reflectTable (t : ResourceTable) : Building Unit := do
  let json := b.reflectionDir.joinName s!"{t.name}.srt.json"
  let header := b.reflectionDir.joinName s!"{t.name}.srt.h"
  place json (Text.utf8 t.toJson.pretty)
  place header (Text.utf8 t.header)
  modify fun w => { w with report := { w.report with
    reflection := w.report.reflection ++ [json, header] } }

def readFile (input : Path) : Building ShaderFile := do
  ExceptT.mk (pure (ShaderFile.load (← get).build.tree b.config.includePaths input))

def fingerprint (paths : List Path) : Building String := do
  ExceptT.mk (pure (Fingerprint.ofFiles (← get).build.tree paths))

def rebuild (input canonical : Path) : Building Unit := do
  checkCancelled
  let f ← b.readFile input
  let fingerprint ← fingerprint f.source.dependencies
  modify fun w => { w with report := { w.report with
    errors := w.report.errors ++ f.tables.faults.map Failure.message } }
  f.tables.tables.forM b.reflectTable
  let os ← ExceptT.mk (pure f.outputs)
  b.config.targets.forM (b.reportTarget f os)
  let report := (← get).report
  if report.succeeded then
    match b.cache.record (← get).build.tree
        { input := canonical, dependencies := f.source.dependencies, fingerprint
          arguments := b.arguments, outputs := report.artifacts } with
    | .ok tree => setTree tree
    | .error e => throw e

def buildInput (input : Path) : Building Unit := do
  match (← get).build.tree.canonical input with
  | .error e => throw (.pathIo input e)
  | .ok canonical =>
    if b.config.incremental && b.cache.isFresh (← get).build.tree canonical b.arguments then
      modify fun w => { w with report := { w.report with cached := true } }
    else b.rebuild input canonical

def buildFile (s : BuildState) (input : Path) : FileReport × BuildState :=
  if s.cancelled then
    ({ FileReport.start input with errors := [Failure.cancelled.message] }, s)
  else
    match (b.buildInput input).run.run ⟨s, .start input, []⟩ with
    | (.ok (), w) => (w.report, w.build)
    | (.error e, w) => ({ w.report with errors := w.report.errors ++ [e.message] }, w.build)

def buildFiles (s : BuildState) : List Path → List FileReport × BuildState
  | [] => ([], s)
  | input :: inputs =>
    let (report, s) := b.buildFile s input
    let (reports, s) := buildFiles s inputs
    (report :: reports, s)

/-- The files that belong to an input: those just written for its targets, or those that were when
it was last built. -/
def ownedOutputs (tree : FileTree) (r : FileReport) : List Path :=
  if r.cached then
    match tree.canonical r.input with
    | .ok canonical =>
      match b.cache.load tree canonical with
      | some row => row.outputs.filter fun p => !p.startsWith b.reflectionDir
      | none => []
    | .error _ => []
  else r.targetArtifacts

def lesser (p : Path) : Option Path → Path
  | some q => if p.compare q = .gt then q else p
  | none => p

/-- The least path that two lists have in common. -/
def leastShared? (ps qs : List Path) : Option Path :=
  (ps.filter fun p => qs.any p.same).foldr (fun p least => some (lesser p least)) none

/-- Another input that files of an input belong to. -/
structure Clash where
  position : Nat
  other : FileReport
  /-- The least of the files that belong to both. -/
  path : Path

def Clash.message (c : Clash) : String := s!"output {c.path} is also produced by {c.other.input}"

/-- A path as it is first written. -/
def spelling (files : List (FileReport × List Path)) (p : Path) : Path :=
  ((files.flatMap Prod.snd).find? p.same).getD p

/-- The other inputs that the files of an input belong to, in their order. -/
def clashes (files : List (FileReport × List Path)) (position : Nat) (owned : List Path) :
    List Clash :=
  files.zipIdx.filterMap fun ((other, otherOwned), j) =>
    if j = position then none
    else (leastShared? owned otherOwned).map fun p => ⟨j, other, spelling files p⟩

/-- What is wrong with an input that shares files with others. -/
def sharedFaults (files : List (FileReport × List Path)) (position : Nat) (owned : List Path) :
    List String :=
  (clashes files position owned).map Clash.message

/-- Drops the row of an input whose files cannot be trusted. -/
def forget (tree : FileTree) (input : Path) : FileTree :=
  match tree.canonical input with
  | .ok canonical => (b.cache.invalidate tree canonical).toOption.getD tree
  | .error _ => tree

/-- Inputs that share files all fail, and are built again next time. -/
def rejectShared (tree : FileTree) (reports : List FileReport) : List FileReport × FileTree :=
  let files := reports.map fun r => (r, b.ownedOutputs tree r)
  let checked := files.zipIdx.map fun ((r, owned), i) => (r, sharedFaults files i owned)
  let reports := checked.map fun (r, faults) =>
    if faults.isEmpty then r else { r with errors := r.errors ++ faults, cached := false }
  let tree := checked.foldl (fun tree (r, faults) =>
    if faults.isEmpty then tree else b.forget tree r.input) tree
  (reports, tree)

def sortTargets (disabled : List (Target × String)) : List (Target × String) :=
  Target.all.filterMap fun t => (disabled.lookup t).map (t, ·)

/-- Builds inputs and reports on them in the order of their paths. -/
def run (s : BuildState) (inputs : List Path) : BuildReport × BuildState :=
  let (reports, s) := b.buildFiles s inputs
  let sorted := reports.mergeSort fun x y => x.input.compare y.input != .gt
  let (files, tree) := b.rejectShared s.tree sorted
  let s := { s with tree }
  ({ files, disabled := sortTargets s.disabled, cancelled := s.cancelled }, s)

/-- Finds the tools of a configuration. The targets without a tool are given up from the start. -/
def locateTools (m : Machine) (tree : FileTree) (config : BuildConfig) :
    List (Target × Compiler) × List (Target × String) :=
  if config.compile then
    (config.targets.filterMap fun t =>
        match Tool.locate m tree t (config.options t).compiler with
        | .ok tool => some (t, tool.compiler m)
        | .error _ => none,
      config.targets.filterMap fun t =>
        match Tool.locate m tree t (config.options t).compiler with
        | .ok _ => none
        | .error e => some (t, e.message))
  else ([], [])

/-- A builder and the state that its first build starts in. -/
def start (m : Machine) (tree : FileTree) (config : BuildConfig) : Builder × BuildState :=
  let (compilers, disabled) := locateTools m tree config
  ({ config, compilers }, { tree, disabled, cancelled := false, requests := [] })

def withCompiler (target : Target) (compiler : Compiler) :
    Builder × BuildState → Builder × BuildState
  | (b, s) =>
    ({ b with compilers := (target, compiler) :: b.compilers },
      { s with disabled := s.disabled.filter (·.1 != target) })

end Builder
end ShaderDialect
