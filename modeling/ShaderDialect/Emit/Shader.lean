import ShaderDialect.Emit.Body
import ShaderDialect.ResourceTable.Limits

/-! Generated shaders, and what is told of them to those who bind their resources. -/
namespace ShaderDialect

/-- Choices that a target leaves open. -/
structure EmitOptions where
  /-- Indices of resources may differ between invocations. -/
  descriptorIndexing : Bool
  /-- Resources are bound in buffers, one for each set. -/
  argumentBuffers : Bool
  shaderModel : Option String
  deriving Repr, DecidableEq

def EmitOptions.standard : EmitOptions := ⟨true, false, none⟩

inductive RegisterClass
  | sampler | view | access | constants
  deriving Repr, DecidableEq

def RegisterClass.ofKind : ResourceKind → RegisterClass
  | .sampler _ => sampler
  | .texture _ _ | .buffer _ => view
  | .rwTexture _ _ | .rwBuffer _ => access
  | .constantBuffer _ => constants

def RegisterClass.letter : RegisterClass → String
  | sampler => "s"
  | view => "t"
  | access => "u"
  | constants => "b"

/-- The arguments of an entry point that resources are bound to one by one. -/
inductive ArgumentClass
  | texture | buffer | sampler
  deriving Repr, DecidableEq

def ArgumentClass.ofKind : ResourceKind → ArgumentClass
  | .sampler _ => sampler
  | .texture _ _ | .rwTexture _ _ => texture
  | .buffer _ | .rwBuffer _ | .constantBuffer _ => buffer

def ArgumentClass.name : ArgumentClass → String
  | texture => "texture"
  | buffer => "buffer"
  | sampler => "sampler"

inductive Slot
  | register (kind : RegisterClass) (index space : Nat)
  | descriptor (set binding : Nat)
  | member (buffer id : Nat)
  | argument (kind : ArgumentClass) (index : Nat)
  deriving Repr, DecidableEq

def Slot.text : Slot → String
  | register kind index space => s!"{kind.letter}{index}, space{space}"
  | descriptor set binding => s!"set = {set}, binding = {binding}"
  | member buffer id => s!"buffer({buffer}), id({id})"
  | argument kind index => s!"{kind.name}({index})"

structure Binding where
  frequency : Frequency
  resource : TableResource
  slot : Slot
  deriving Repr, DecidableEq

def Binding.toJson (b : Binding) : Json :=
  .obj [("name", .str b.resource.name), ("kind", .str b.resource.kind.label),
    ("frequency", .str b.frequency.name), ("index", .nat b.resource.index),
    ("array_len", .nat b.resource.length), ("slot", .str b.slot.text)]

structure ShaderInfo where
  name : String
  target : Target
  stage : Stage
  /-- The name of the entry point in the generated text. -/
  entry : String
  features : FeatureSet
  bindingModel : BindingModel
  nonUniform : NonUniform
  table : Option String
  threads : Option Threads
  bindings : List Binding
  inputs : List Varying
  outputs : List Varying

namespace ShaderInfo

def ofUnit (u : ShaderUnit) (entry : String) (bindingModel : BindingModel) (nonUniform : NonUniform)
    (bindings : List Binding) : ShaderInfo :=
  { name := u.name
    target := u.target
    stage := u.stage
    entry
    features := u.features
    bindingModel
    nonUniform
    table := u.table.map ResourceTable.name
    threads := u.threads
    bindings
    inputs := u.interface.inputs
    outputs := u.interface.outputs }

def toJson (i : ShaderInfo) : Json :=
  .obj [("name", .str i.name), ("target", .str i.target.name), ("stage", .str i.stage.name),
    ("entry", .str i.entry), ("flags", .arr (i.features.symbols.map .str)),
    ("binding_model", .str i.bindingModel.name), ("nonuniform", .str i.nonUniform.name),
    ("table", .ofOption .str i.table),
    ("num_threads", .ofOption (fun t : Threads => .arr [.nat t.x, .nat t.y, .nat t.z]) i.threads),
    ("bindings", .arr (i.bindings.map Binding.toJson)),
    ("inputs", .arr (i.inputs.map Varying.toJson)),
    ("outputs", .arr (i.outputs.map Varying.toJson))]

end ShaderInfo

structure Shader where
  source : String
  info : ShaderInfo

namespace Emit

def ofLines (lines : List String) : String := String.join (lines.map (· ++ "\n"))

def arraySuffix : Option Nat → String
  | some n => s!"[{n}]"
  | none => ""

/-- The array suffix of a resource, which is an array from two elements on. -/
def resourceSuffix (r : TableResource) : String :=
  if 1 < r.length then arraySuffix (some r.length) else ""

def headComment (u : ShaderUnit) : String :=
  let label := u.features.label
  let comma := if label.isEmpty then "" else ", "
  s!"// {u.name} ({u.target.name} {u.stage.name} shader{comma}{label}). " ++
    "Generated file, do not edit."

def block (head : String) (inner : List String) (close : String) : List String :=
  [head, "\x7b"] ++ inner ++ [close]

/-- Lines after an empty one, if there are any. -/
def paragraph (lines : List String) : List String := if lines.isEmpty then [] else "" :: lines

def indented (line : String) : String := "    " ++ line

/-- A struct and its fields, after an empty line. -/
def structLines (name : String) (fields : List String) : List String :=
  "" :: block s!"struct {name}" (fields.map indented) "\x7d;"

def structDefLines (l : Language) (d : StructDef) : List String :=
  structLines d.name (d.fields.map fun f =>
    s!"{l.typeName f.type} {f.name}{arraySuffix f.length};")

def functionLines (l : Language) (u : ShaderUnit) (h : UnitFunction) (params : List String) :
    Except Failure (List String) := do
  let body ← Writer.body ⟨l, u, .helper⟩ h.function.body
  let head := l.typeName h.function.returns ++ " " ++ callText h.function.name params
  return "" :: block head body "\x7d"

def globalText (l : Language) (u : ShaderUnit) (body : List Fragment) : Except Failure String :=
  Writer.expression ⟨l, u, .helper⟩ none body

def entryBody (l : Language) (u : ShaderUnit) : Except Failure (List String) :=
  Writer.body ⟨l, u, .entry⟩ u.entry.function.body

/-- The words before a parameter that its caller reads or writes. -/
def passingWord : Passing → String
  | .value => ""
  | .out => "out "
  | .inout => "inout "

/-- The storage words that a global may start with. -/
def isQualifier (word : String) : Bool :=
  word == "static" || word == "const" || word == "groupshared" || word == "uniform"

/-- The storage words of a global, and the rest of it. -/
def splitQualifiers : List Fragment → List String × List Fragment
  | [] => ([], [])
  | f :: fs =>
    match f.word? with
    | some word =>
      if isQualifier word then
        let (words, rest) := splitQualifiers fs
        (word :: words, rest)
      else ([], f :: fs)
    | none => ([], f :: fs)

/-- The declarations of a set's resources, under a comment with the number of the set. -/
def setLines (declare : Frequency → TableResource → Except Failure (List String)) (word : String)
    (s : TableSet) : Except Failure (List String) := do
  let declarations ← s.resources.mapM (declare s.frequency)
  return ["", s!"// {s.frequency.name} ({word}{s.frequency.index})"] ++ declarations.flatten

def tableLines (target : Target) (descriptorIndexing : Bool)
    (declare : Frequency → TableResource → Except Failure (List String)) (word : String)
    (t : ResourceTable) : Except Failure (List String) := do
  t.checkLimits target descriptorIndexing
  return (← t.sets.mapM (setLines declare word)).flatten

/-- The bindings of a table, by a rule that gives each resource its slot. -/
def bindings (t : ResourceTable) (slot : Frequency → TableResource → Slot) : List Binding :=
  t.resources.map fun (frequency, r) => ⟨frequency, r, slot frequency r⟩

def bindingsOf (u : ShaderUnit) (slot : Frequency → TableResource → Slot) : List Binding :=
  (u.table.map fun t => bindings t slot).getD []

end Emit
end ShaderDialect
