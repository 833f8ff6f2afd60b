import ShaderDialect.Program
import ShaderDialect.Text.Quoted

/-! What counts of a set or a table when it is declared again, and the text that spells it out. Two
declarations of one name are compared by their texts. -/
namespace ShaderDialect

def Scalar.label : Scalar → String
  | float => "Float"
  | half => "Half"
  | int => "Int"
  | uint => "Uint"
  | bool => "Bool"
  | atomicInt => "AtomicInt"
  | atomicUint => "AtomicUint"

/-- The type with all that tells it from others. -/
def ValueType.signature : ValueType → String
  | void => "Void"
  | scalar s => String.join ["Scalar(", s.label, ")"]
  | vector s n => String.join ["Vector(", s.label, ", ", n.repr, ")"]
  | matrix s c r =>
    String.join ["Matrix \x7b scalar: ", s.label, ", columns: ", c.repr, ", rows: ",
      r.repr, " \x7d"]
  | struct name => String.join ["Struct(", Text.quoteDiagnostic name, ")"]

/-- The kind with the type of its elements. -/
def ResourceKind.signature : ResourceKind → String
  | sampler comparison =>
    String.join ["Sampler \x7b comparison: ", if comparison then "true" else "false", " \x7d"]
  | texture s e => String.join ["Texture \x7b dim: ", s.name, ", elem: ", e.signature, " \x7d"]
  | rwTexture s e => String.join ["RwTexture \x7b dim: ", s.name, ", elem: ", e.signature, " \x7d"]
  | buffer e => String.join ["Buffer \x7b elem: ", e.signature, " \x7d"]
  | rwBuffer e => String.join ["RwBuffer \x7b elem: ", e.signature, " \x7d"]
  | constantBuffer e => String.join ["ConstantBuffer \x7b elem: ", e.signature, " \x7d"]

/-- What counts of a declaration when it is made again. -/
abbrev DeclContents := String × ResourceKind × Nat × Frequency

namespace DeclContents

/-- The name, kind, length and frequency of a declaration. -/
def parts (d : DeclContents) : List String := [d.1, d.2.1.signature, d.2.2.1.repr, d.2.2.2.name]

def signature (d : DeclContents) : String := "/".intercalate (parts d)

end DeclContents

def ResourceDecl.contents (d : ResourceDecl) : DeclContents :=
  (d.name, d.kind, d.length, d.frequency)

/-- What counts of a set when it is declared again; places do not. -/
inductive SetContents
  | listed (frequency : Frequency) (decls : List DeclContents)
  | included (name : String)
  deriving Repr, DecidableEq

/-- The contents of a set as a text. Each declaration ends with a mark, and the name of a shared set
that is included stands after another one. -/
def SetContents.signature : SetContents → String
  | listed f decls =>
    String.join (f.name :: ":" :: decls.flatMap fun d => [DeclContents.signature d, ";"])
  | included name => String.join ["@", name]

namespace SetBlock

def contents (s : SetBlock) : SetContents :=
  .listed s.frequency (s.decls.map ResourceDecl.contents)

def signature (s : SetBlock) : String := s.contents.signature

end SetBlock

def SetSource.contents : SetSource → SetContents
  | own set => set.contents
  | shared name _ => .included name

namespace TableDecl

def contents (d : TableDecl) : List SetContents := d.sets.map SetSource.contents

def signature (d : TableDecl) : String := "|".intercalate (d.contents.map SetContents.signature)

end TableDecl
end ShaderDialect
