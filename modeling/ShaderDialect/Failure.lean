import ShaderDialect.Failure.Program
import ShaderDialect.Failure.Source
import ShaderDialect.Failure.Target
import ShaderDialect.Feature
import ShaderDialect.IoFault
import ShaderDialect.Path
import ShaderDialect.Text.Quoted

/-! Everything that can go wrong, by cause. The wording of each cause is in its `message`. -/
namespace ShaderDialect

inductive ToolFault
  | missing (program : Path)
  | notFound (program setting : String)
  | cannotStart (program : Path) (fault : IoFault)
  | noCompiler
  | reported (message : String)
  deriving Repr, DecidableEq

def ToolFault.message : ToolFault → String
  | missing program => s!"'{program}' does not exist"
  | notFound program setting =>
    s!"'{program}' not found on PATH (set {setting} or the toolchain path in fsl.toml)"
  | cannotStart program fault => s!"cannot start '{program}': {fault.message}"
  | noCompiler => "no compiler available"
  | reported message => message

/-- Why bytes are not a variant container, or a variant cannot be put into one. -/
inductive ContainerFault
  | notContainer
  | version (number : Nat)
  | truncated
  | unknownTarget (code : Nat)
  | unknownFeatures (bits : Nat)
  | outside (position : Nat)
  | duplicate (target : Target) (features : FeatureSet)
  deriving Repr, DecidableEq

def ContainerFault.message : ContainerFault → String
  | notContainer => "not a variant container"
  | version n => s!"unsupported container version {n}"
  | truncated => "truncated container"
  | unknownTarget code => s!"unknown target code {code}"
  | unknownFeatures bits => "unknown feature bits 0x" ++ String.ofList (Nat.toDigits 16 bits)
  | outside position => s!"variant {position} lies outside the container"
  | duplicate target features =>
    s!"duplicate variant for {target.name} with flags [{features.label}]"

inductive ConfigFault
  | unreadable
  | noTargets
  | emptySignature
  deriving Repr, DecidableEq

def ConfigFault.message : ConfigFault → String
  | unreadable => "the project file does not have the expected form"
  | noTargets => "build.targets must name at least one target"
  | emptySignature => "root signature names must not be empty"

/-- Why a reload request is not answered with artifacts. -/
inductive ReloadFault
  | frameTooLong (length : Nat)
  | frameCut (length : Nat)
  | unknownProject (name : String)
  | noInputs
  | missingInput (path : Path)
  | notRunning (address : String)
  | noResponse
  deriving Repr, DecidableEq

def ReloadFault.message : ReloadFault → String
  | frameTooLong n => s!"frame of {n} bytes exceeds the limit"
  | frameCut n => s!"connection closed inside a frame of {n} bytes"
  | unknownProject name => s!"unknown project '{name}'"
  | noInputs => "no input files"
  | missingInput path => s!"input file not found: {path}"
  | notRunning address => s!"reload server is not running on {address}"
  | noResponse => "server closed the connection without a response"

inductive Failure
  | source (loc : Loc) (fault : SourceFault)
  | program (scope : String) (fault : ProgramFault)
  | unsupported (target : Target) (operation : String) (fault : TargetFault)
  | compiler (target : Target) (file output : String)
  | environment (target : Target) (fault : ToolFault)
  | noMatchingVariant (target : Target) (features : FeatureSet)
  | container (fault : ContainerFault)
  | config (file : Option Path) (fault : ConfigFault)
  | reload (fault : ReloadFault)
  | cancelled
  | pathIo (path : Path) (fault : IoFault)
  | io (fault : IoFault)
  | json
  deriving Repr, DecidableEq

namespace Failure

def target? : Failure → Option Target
  | unsupported t _ _ | compiler t _ _ | environment t _ | noMatchingVariant t _ => some t
  | _ => none

/-- A project file's fault, under the file's name where it has one. -/
def configText (file : Option Path) (fault : ConfigFault) : String :=
  match file with
  | some path => s!"{path}: {fault.message}"
  | none => fault.message

def message : Failure → String
  | source loc fault => s!"{loc}: syntax error: {fault.message}"
  | program scope fault => s!"semantic error in '{scope}': {fault.message}"
  | unsupported target operation fault =>
    s!"{target.name}: unsupported operation '{operation}': {fault.message}"
  | compiler target file output => s!"{target.name} compiler failed on {file}:\n{output}"
  | environment target fault => s!"{target.name} toolchain unavailable: {fault.message}"
  | noMatchingVariant target features =>
    s!"no matching variant for {target.name} with flags [{features.label}]"
  | container fault => s!"variant container error: {fault.message}"
  | config file fault => "configuration error: " ++ configText file fault
  | reload fault => s!"reload error: {fault.message}"
  | cancelled => "build cancelled"
  | pathIo path fault => s!"IO error on {path}: {fault.message}"
  | io fault => s!"IO error: {fault.message}"
  | json => "JSON error: the text does not have the expected form"

/-- The form in which a command that fails as a whole names its failure. -/
def details : Failure → String
  | container fault => "Container(" ++ Text.quoteDiagnostic fault.message ++ ")"
  | config file fault => "Config(" ++ Text.quoteDiagnostic (configText file fault) ++ ")"
  | reload fault => "Reload(" ++ Text.quoteDiagnostic fault.message ++ ")"
  | cancelled => "Cancelled"
  | pathIo path fault =>
    "PathIo \x7b path: " ++ Text.quoteDiagnostic path.text ++ s!", source: {fault.details} \x7d"
  | io fault => s!"Io({fault.details})"
  | json => "Json"
  | f => Text.quoteDiagnostic f.message

end Failure
end ShaderDialect
