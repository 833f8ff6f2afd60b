import ShaderDialect.Output
import ShaderDialect.Tool

/-! Compiling generated shaders. -/
namespace ShaderDialect

structure CompileRequest where
  /-- What the shader is called in messages. -/
  label : String
  stage : Stage
  entry : String
  source : String
  shaderModel : Option String
  extraArgs : List String
  deriving Repr, DecidableEq

structure CompileOutcome where
  tree : FileTree
  /-- Whether the build was asked to stop meanwhile. -/
  cancelled : Bool
  result : Except Failure (List UInt8)

abbrev Compiler := FileTree → CompileRequest → CompileOutcome

namespace Tool

def profile : Stage → String
  | .vertex => "vs"
  | .pixel => "ps"
  | .compute => "cs"

def modelSuffix (model : Option String) : String :=
  String.ofList ((model.getD "6_6").toList.map fun c => if c = '.' then '_' else c)

def inputPath (t : Tool) (dir : Path) : Path := dir.joinName s!"shader.{t.target.sourceExtension}"

def outputPath (t : Tool) (dir : Path) : Path := dir.joinName s!"shader.{t.target.binaryExtension}"

/-- The arguments of the runs that compile a shader, one run after the other. -/
def commands (t : Tool) (dir : Path) (r : CompileRequest) : List (List String) :=
  let input := (t.inputPath dir).text
  let output := (t.outputPath dir).text
  match t.target with
  | .direct3d12 =>
    [["-T", profile r.stage ++ "_" ++ modelSuffix r.shaderModel, "-E", r.entry, "-Fo", output] ++
      r.extraArgs ++ [input]]
  | .vulkan =>
    [["-V", "--target-env", "vulkan1.2", "-S", r.stage.suffix, "-o", output] ++ r.extraArgs ++
      [input]]
  | .metal =>
    let air := (dir.joinName "shader.air").text
    [["-sdk", "macosx", "metal", "-c", input, "-o", air] ++ r.extraArgs,
      ["-sdk", "macosx", "metallib", air, "-o", output]]

/-- Runs the tool once. A tool that cannot be started is not there; one that fails tells why. -/
def runOnce (t : Tool) (m : Machine) (label : String) (tree : FileTree) (args : List String) :
    Except (FileTree × Failure) FileTree :=
  match m.run tree t.program args with
  | .error .notFound =>
    .error (tree, .environment t.target (.cannotStart t.program .notFound))
  | .error .permissionDenied =>
    .error (tree, .environment t.target (.cannotStart t.program .permissionDenied))
  | .error e => .error (tree, .io e)
  | .ok (tree, output) =>
    if output.success then .ok tree
    else
      let text := Text.ofUtf8Lossy output.stdout ++ Text.ofUtf8Lossy output.stderr
      .error (tree, .compiler t.target label (String.ofList text))

def compileIn (t : Tool) (m : Machine) (tree : FileTree) (r : CompileRequest) :
    FileTree × Except Failure (List UInt8) :=
  let input := t.inputPath m.tempDir
  let output := t.outputPath m.tempDir
  match tree.write input (Text.utf8 r.source) with
  | .error e => (tree, .error (.pathIo input e))
  | .ok tree =>
    match (t.commands m.tempDir r).foldlM (t.runOnce m r.label) tree with
    | .error (tree, e) => (tree, .error e)
    | .ok tree =>
      match tree.read output with
      | .error e => (tree, .error (.pathIo output e))
      | .ok bytes => (tree, .ok bytes)

def cleanUp (tree : FileTree) (dir : Path) : FileTree :=
  match tree.resolve dir with
  | .ok k => tree.eraseBelow k
  | .error _ => tree

def compiler (t : Tool) (m : Machine) : Compiler := fun tree r =>
  match tree.makeDirectories m.tempDir with
  | .error e => ⟨tree, false, .error (.io e)⟩
  | .ok tree =>
    let (tree, result) := t.compileIn m tree r
    ⟨cleanUp tree m.tempDir, false, result⟩

end Tool
end ShaderDialect
