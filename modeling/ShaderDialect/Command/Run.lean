import ShaderDialect.Command
import ShaderDialect.Config.Reader
import ShaderDialect.Reload.Client
import ShaderDialect.Reload.Server

/-! Carrying out commands. -/
namespace ShaderDialect

inductive CommandFailure
  | io (fault : IoFault)
  | failure (f : Failure)
  /-- Some of the inputs failed. -/
  | inputs (count : Nat)
  deriving Repr, DecidableEq

def CommandFailure.details : CommandFailure → String
  | io fault => s!"IoError({fault.details})"
  | failure f => s!"CompilationError({f.details})"
  | inputs count => s!"BuildFailed({count})"

/-- What a command has done so far. -/
structure Session where
  tree : FileTree
  stdout : String
  stderr : String

/-- The work of a command, which a failure ends. -/
abbrev Working (α : Type) := ExceptT CommandFailure (StateM Session) α

inductive Outcome
  /-- It ended with a status. -/
  | ended (status : UInt32) (session : Session)
  /-- A server runs at an address until it is interrupted. -/
  | serving (address : String) (server : ReloadServer) (session : Session)

namespace Command
variable (m : Machine) (n : Network)

def tree : Working FileTree := return (← get).tree

def printLine (line : String) : Working Unit :=
  modify fun s => { s with stdout := s.stdout ++ line ++ "\n" }

def reportLine (line : String) : Working Unit :=
  modify fun s => { s with stderr := s.stderr ++ line ++ "\n" }

def orFail {α : Type} : Except Failure α → Working α
  | .ok a => pure a
  | .error e => throw (.failure e)

def orFailIo {α : Type} : Except IoFault α → Working α
  | .ok a => pure a
  | .error e => throw (.io e)

def defaultConfig : Path := ⟨"fsl.toml"⟩

def loadProject (path : Option Path) : Working ProjectConfig := do
  let t ← tree
  match path with
  | some path => orFail (ProjectConfig.load t path)
  | none =>
    if t.isFile defaultConfig then orFail (ProjectConfig.load t defaultConfig)
    else return .standard

/-- The settings of the project file with those of the command line. -/
def buildConfig (args : BuildArguments) : Working BuildConfig := do
  let c := (← loadProject args.config).build
  return { c with
    targets := args.targets.getD c.targets
    includePaths := c.includePaths ++ args.includePaths }

def compileConfig (args : CompileArguments) : Working BuildConfig := do
  let c ← buildConfig args.build
  return { c with
    outDir := args.outDir.getD c.outDir
    workers := args.workers.getD c.workers
    incremental := c.incremental || args.incremental
    compile := c.compile && !args.noCompile }

def runCompile (args : CompileArguments) : Working Unit := do
  let config ← compileConfig args
  let (builder, start) := Builder.start m (← tree) config
  let (report, state) := builder.run start args.inputs
  modify fun s => { s with tree := state.tree }
  if let some path := args.report then
    let t ← orFailIo (state.tree.write path (Text.utf8 report.toJson.pretty))
    modify fun s => { s with tree := t }
  report.failures.forM reportLine
  if !report.succeeded then
    throw (.inputs (report.files.filter fun f => !f.succeeded).length)

/-- What is wrong with the outputs of a file on a target. -/
def targetFaults (c : BuildConfig) (f : ShaderFile) (os : List Output) (t : Target) : List String :=
  os.filterMap fun o =>
    match f.shader c.signatures (c.options t).emitOptions o t with
    | .ok _ => none
    | .error e => some s!"{o.name} ({t.name}): {e.message}"

def inputFaults (c : BuildConfig) (t : FileTree) (input : Path) : List String :=
  match ShaderFile.load t c.includePaths input with
  | .error e => [e.message]
  | .ok f =>
    f.tables.faults.map Failure.message ++
      match f.outputs with
      | .error e => [e.message]
      | .ok os => c.targets.flatMap (targetFaults c f os)

def runCheck (inputs : List Path) (args : BuildArguments) : Working Unit := do
  let c ← buildConfig args
  let t ← tree
  let faults := inputs.map fun input => (input, inputFaults c t input)
  faults.forM fun (input, faults) => faults.forM fun e => reportLine s!"{input}: {e}"
  let failed := (faults.filter fun (_, faults) => !faults.isEmpty).length
  if 0 < failed then throw (.inputs failed)

/-- The server of a project and of the projects that it names. -/
def prepareServer (args : ServeArguments) : Working (String × ReloadServer) := do
  let project ← loadProject args.config
  let reload := { project.reload with
    bind := args.bind.getD project.reload.bind
    tcpPort := args.tcpPort.getD project.reload.tcpPort }
  let t ← tree
  let named ← reload.projects.mapM fun (name, path) => do
    return (name, (← orFail (ProjectConfig.load t path)).build)
  orFailIo (n.listen reload.address)
  return (reload.address, ⟨named ++ [(defaultProject, project.build)], m⟩)

/-- The address of a server and what is asked of it. -/
def reloadRequest (args : ReloadArguments) : Working (String × ReloadRequest) := do
  let address ← match args.address with
    | some address => pure address
    | none => pure (← loadProject args.config).reload.address
  return (address, ⟨args.project, args.inputs.map (← tree).absolute⟩)

def runReload (args : ReloadArguments) : Working Unit := do
  let (address, request) ← reloadRequest args
  let response ← orFail (request.send n address)
  if let some message := response.error then reportLine message
  response.artifacts.forM fun a => printLine s!"{a.path} ({a.bytes.length} bytes)"
  if !response.success then throw (.inputs args.inputs.length)

def runInspect (path : Path) : Working Unit := do
  let bytes ← orFailIo ((← tree).read path)
  let container ← orFail ((VariantContainer.ofBytes bytes).mapError Failure.container)
  printLine s!"{path}: {container.variants.length} variant(s)"
  container.variants.forM fun v => do
    let label := if v.features.isEmpty then "-" else v.features.label
    let target := padRight 10 v.target.name
    let features := padRight 40 label
    printLine s!"  {target} {features} {v.bytes.length} bytes"

/-- Ends with status 0, or with status 1 and the failure that ended the work. -/
def finish (w : Working Unit) (t : FileTree) : Outcome :=
  match w.run.run ⟨t, "", ""⟩ with
  | (.ok (), s) => .ended 0 s
  | (.error e, s) => .ended 1 { s with stderr := s.stderr ++ s!"Error: {e.details}\n" }

def run (t : FileTree) : Command → Outcome
  | .compile args => finish (runCompile m args) t
  | .check inputs args => finish (runCheck inputs args) t
  | .serve args =>
    match (prepareServer m n args).run.run ⟨t, "", ""⟩ with
    | (.ok (address, server), s) => .serving address server s
    | (.error e, s) => .ended 1 { s with stderr := s.stderr ++ s!"Error: {e.details}\n" }
  | .reload args => finish (runReload n args) t
  | .inspect path => finish (runInspect path) t

end Command

/-- Does what a command line asks for. A command line that is refused ends with status 2. -/
def runWords (m : Machine) (n : Network) (t : FileTree) (words : List String) : Outcome :=
  match Invocation.ofWords words with
  | .run command => command.run m n t
  | .help text => .ended 0 ⟨t, text, ""⟩
  | .refused why => .ended 2 ⟨t, "", s!"error: {why.message}\n"⟩

end ShaderDialect
