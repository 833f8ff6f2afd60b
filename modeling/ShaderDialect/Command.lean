import ShaderDialect.CommandLine.Help
import ShaderDialect.Path
import ShaderDialect.Target
import ShaderDialect.Text.Numeral

/-! The commands of the program. -/
namespace ShaderDialect

structure BuildArguments where
  /-- The project file. -/
  config : Option Path
  targets : Option (List Target)
  includePaths : List Path
  deriving Repr, DecidableEq

structure CompileArguments where
  inputs : List Path
  build : BuildArguments
  outDir : Option Path
  workers : Option Nat
  incremental : Bool
  noCompile : Bool
  report : Option Path
  deriving Repr, DecidableEq

structure ServeArguments where
  config : Option Path
  bind : Option String
  tcpPort : Option Nat
  deriving Repr, DecidableEq

structure ReloadArguments where
  inputs : List Path
  project : String
  address : Option String
  config : Option Path
  deriving Repr, DecidableEq

inductive Command
  /-- Generates and compiles. -/
  | compile (args : CompileArguments)
  /-- Generates without writing anything. -/
  | check (inputs : List Path) (build : BuildArguments)
  /-- Runs a reload server. -/
  | serve (args : ServeArguments)
  /-- Asks a reload server. -/
  | reload (args : ReloadArguments)
  /-- Lists the variants of a container. -/
  | inspect (container : Path)
  deriving Repr, DecidableEq

namespace Command

def defaultProject : String := "default"

def isPath (s : String) : Bool := !s.isEmpty

def targets? (s : String) : Option (List Target) := (Target.parseList s).toOption

/-- A whole number below a bound, which may carry a plus sign. -/
def number? (bound : Nat) (s : String) : Option Nat :=
  Text.boundedNumeral? 10 bound (Text.dropPlus s.toList)

/-- A whole number below a bound that may carry either sign; only zero can be written with a
minus. -/
def signedNumber? (bound : Nat) (s : String) : Option Nat :=
  match s.toList with
  | '-' :: digits => Text.boundedNumeral? 10 1 digits
  | _ => number? bound s

def workersBound : Nat := 1 <<< 64

def addressBound : Nat := 1 <<< 16

def configOption (help : String) : CommandOption := .valued (some 'c') "config" "FILE" isPath help

def buildOptions : List CommandOption :=
  [configOption "Project file (defaults to ./fsl.toml when present)",
    .valued (some 't') "target" "TARGET" (fun s => (targets? s).isSome)
      "Targets: direct3d12, vulkan, metal, a comma-separated list, or all",
    { CommandOption.valued (some 'I') "include" "DIR" isPath "Include directory (repeatable)" with
      repeats := true }]

def compileForm : CommandForm :=
  { name := "compile"
    about := "Translate and compile source files"
    operands := .many "FILE" "Input source files"
    options := buildOptions ++
      [.valued (some 'o') "out" "DIR" isPath "Output directory",
        .valued none "mp" "N" (fun s => (number? workersBound s).isSome) "Number of worker threads",
        .flag "incremental" "Skip inputs whose sources, includes and arguments are unchanged",
        .flag "no-compile" "Only generate source; do not run the native compilers",
        .valued none "report" "FILE" isPath "Write the build report as JSON"] }

def checkForm : CommandForm :=
  { name := "check"
    about := "Translate source files in memory and report errors without writing anything"
    operands := .many "FILE" ""
    options := buildOptions }

def serveForm : CommandForm :=
  { name := "serve"
    about := "Run the hot-reload server"
    operands := .none
    options :=
      [configOption "", .valued none "bind" "BIND" (fun _ => true) "",
        .valued (some 'p') "port" "PORT" (fun s => (signedNumber? addressBound s).isSome) ""] }

def reloadForm : CommandForm :=
  { name := "reload"
    about := "Ask a running hot-reload server to rebuild files"
    operands := .many "FILE" ""
    options :=
      [.valued none "project" "PROJECT" (fun _ => true) s!"[default: {defaultProject}]",
        .valued (some 'a') "address" "ADDRESS" (fun _ => true)
          "Server address (defaults to the configured bind address and port)",
        configOption ""] }

def inspectForm : CommandForm :=
  { name := "inspect"
    about := "List the variants of a container"
    operands := .one "FILE" ""
    options := [] }

section
variable (a : Arguments)

def path? (word : String) : Option Path := (a.get? word).map Path.mk

def inputs : List Path := a.operands.map Path.mk

def buildArguments : BuildArguments :=
  { config := path? a "config"
    targets := (a.get? "target").bind targets?
    includePaths := (a.getAll "include").map Path.mk }

def ofCompile : Command :=
  .compile
    { inputs := inputs a
      build := buildArguments a
      outDir := path? a "out"
      workers := (a.get? "mp").bind (number? workersBound)
      incremental := a.has "incremental"
      noCompile := a.has "no-compile"
      report := path? a "report" }

def ofServe : Command :=
  .serve
    { config := path? a "config"
      bind := a.get? "bind"
      tcpPort := (a.get? "port").bind (signedNumber? addressBound) }

def ofReload : Command :=
  .reload
    { inputs := inputs a
      project := (a.get? "project").getD defaultProject
      address := a.get? "address"
      config := path? a "config" }
end

/-- The forms of all commands, and how arguments make up each command. -/
def forms : List (CommandForm × (Arguments → Command)) :=
  [(compileForm, ofCompile), (checkForm, fun a => .check (inputs a) (buildArguments a)),
    (serveForm, ofServe), (reloadForm, ofReload),
    (inspectForm, fun a => .inspect ((inputs a).headD ⟨""⟩))]

def overview : String :=
  commandsHelp "Translates portable shader sources to HLSL, Vulkan GLSL and MSL" (forms.map (·.1))

def form? (name : String) : Option (CommandForm × (Arguments → Command)) :=
  forms.find? fun (form, _) => form.name == name

end Command

/-- What the words of a command line ask for. -/
inductive Invocation
  | run (command : Command)
  | help (text : String)
  | refused (why : Usage)

namespace Invocation
open Command

/-- Help on the program, or on a command that is named. -/
def helpOn : List String → Invocation
  | [] => .help overview
  | ["help"] => .help (CommandForm.helpForm.describe [])
  | name :: rest =>
    match form? name, rest with
    | some (form, _), [] => .help form.help
    | some _, word :: _ => .refused (.unknownCommand word)
    | none, _ => .refused (.unknownCommand name)

def asksHelp (word : String) : Bool := word == "--help" || "-h".toList.isPrefixOf word.toList

def ofWords : List String → Invocation
  | [] => .refused .noCommand
  | word :: rest =>
    match form? word with
    | some (form, command) =>
      match form.read rest with
      | .ok a => .run (command a)
      | .error .help => .help form.help
      | .error why => .refused why
    | none =>
      if word = "help" then helpOn rest
      else if asksHelp word then .help overview
      else if CommandForm.isOption word then .refused (.unexpected word)
      else .refused (.unknownCommand word)

end Invocation
end ShaderDialect
