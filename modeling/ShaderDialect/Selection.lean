import ShaderDialect.Output

/-! What one output sees on one target, once its conditional branches have been decided. -/
namespace ShaderDialect

structure StructDef where
  name : String
  fields : List Field
  deriving Repr, DecidableEq, Inhabited

structure Selection where
  structs : List StructDef
  functions : List Function
  globals : List Global
  entries : List EntryPoint
  /-- The names of the visible tables, each once. -/
  tables : List String

/-- The symbols that are defined for an output on a target. -/
def Output.defines (o : Output) (target : Target) (symbol : String) : Bool :=
  symbol == target.symbol || o.features.defines symbol

namespace Selection

def empty : Selection := ⟨[], [], [], [], []⟩

/-- Adds an item outside of all branches. Structs and functions have to have different names. -/
def add (scope : String) (defined : String → Bool) (s : Selection) :
    Item → Except Failure Selection
  | .struct d =>
    if s.structs.any (·.name == d.name) then .error (.program scope (.duplicateStruct d.name))
    else .ok { s with structs := s.structs ++ [⟨d.name, selectMembers defined d.members⟩] }
  | .function f =>
    if s.functions.any (·.name == f.name) then .error (.program scope (.duplicateFunction f.name))
    else .ok { s with functions := s.functions ++ [f.select defined] }
  | .entry e =>
    .ok { s with entries := s.entries ++ [{ e with function := e.function.select defined }] }
  | .global g =>
    .ok { s with globals := s.globals ++ [{ g with body := Fragment.selectList defined g.body }] }
  | .table d => .ok (if d.name ∈ s.tables then s else { s with tables := s.tables ++ [d.name] })
  | .sharedSet _ | .branch .. | .block .. => .ok s

/-- The items of an output: those outside of all blocks and then those of its own. -/
def items (p : Program) (o : Output) : List Item :=
  p.items.filter (!·.isBlock) ++ o.block.getD []

/-- Without blocks an output keeps the entry points of its own stage. -/
def ofOutput (p : Program) (o : Output) (target : Target) : Except Failure Selection := do
  let defined := o.defines target
  let s ← (Item.selectList defined (items p o)).foldlM (add o.name defined) empty
  match o.block with
  | some _ => return s
  | none => return { s with entries := s.entries.filter (·.stage == o.stage) }

end Selection
end ShaderDialect
