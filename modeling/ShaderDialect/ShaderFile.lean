import ShaderDialect.Output
import ShaderDialect.Program.Reader
import ShaderDialect.ResourceTable.Resolve
import ShaderDialect.Source

/-! A source file that has been read and whose tables have been resolved. -/
namespace ShaderDialect

structure ShaderFile where
  source : Source
  program : Program
  tables : ResourceTables
  /-- What outputs are named for that do not name themselves. -/
  defaultName : String

namespace ShaderFile

def ofSource (source : Source) (defaultName : String) : Except Failure ShaderFile := do
  let program ← Program.read source.name source.tokens
  let tables ← program.resolveTables
  return { source, program, tables, defaultName }

def load (tree : FileTree) (includePaths : List Path) (path : Path) :
    Except Failure ShaderFile := do
  let source ← Source.load tree includePaths path
  ofSource source (path.fileStem?.getD "shader")

/-- A file that is given by its text. -/
def ofText (tree : FileTree) (includePaths : List Path) (name text : String) :
    Except Failure ShaderFile := do
  let source ← Source.ofText tree includePaths name text none
  ofSource source ((Path.mk name).fileStem?.getD name)

def outputs (f : ShaderFile) : Except Failure (List Output) := f.program.outputs f.defaultName

end ShaderFile
end ShaderDialect
