import ShaderDialect.Failure
import ShaderDialect.FileTree

/-! The tools that compile generated shaders, and where they are found. -/
namespace ShaderDialect

/-- What a tool that has run leaves behind. -/
structure ToolOutput where
  success : Bool
  stdout : List UInt8
  stderr : List UInt8
  deriving Repr, DecidableEq

structure Machine where
  /-- The variables that are set. -/
  environment : List (String × String)
  /-- A directory that nothing else uses while a tool runs. -/
  tempDir : Path
  /-- Runs a program with arguments; it may change the files. -/
  run : FileTree → Path → List String → Except IoFault (FileTree × ToolOutput)

structure Tool where
  target : Target
  program : Path
  deriving Repr, DecidableEq

namespace Tool

/-- The program that is looked for on the search path. -/
def defaultProgram : Target → String
  | .direct3d12 => "dxc"
  | .vulkan => "glslangValidator"
  | .metal => "xcrun"

/-- The variable that names a program instead. -/
def setting : Target → String
  | .direct3d12 => "FSL_DXC"
  | .vulkan => "FSL_GLSLANG"
  | .metal => "FSL_XCRUN"

def directories (searchPath : String) : List Path :=
  (Text.splitAt ':' searchPath.toList).map fun dir => ⟨String.ofList dir⟩

/-- The first file of a name in the directories, also with the ending of executables. -/
def findIn? (tree : FileTree) (dirs : List Path) (program : String) : Option Path :=
  (dirs.flatMap fun dir => [dir.joinName program, dir.joinName (program ++ ".exe")]).find?
    tree.isFile

/-- The program of a target: the configured one, the one that a variable names, or the first one on
the search path. -/
def program? (m : Machine) (tree : FileTree) (target : Target) (configured : Option Path) :
    Option Path :=
  configured <|> (m.environment.lookup (setting target)).map Path.mk <|>
    (m.environment.lookup "PATH").bind fun searchPath =>
      findIn? tree (directories searchPath) (defaultProgram target)

def locate (m : Machine) (tree : FileTree) (target : Target) (configured : Option Path) :
    Except Failure Tool :=
  match program? m tree target configured with
  | some program =>
    if tree.isFile program then .ok ⟨target, program⟩
    else .error (.environment target (.missing program))
  | none => .error (.environment target (.notFound (defaultProgram target) (setting target)))

end Tool
end ShaderDialect
