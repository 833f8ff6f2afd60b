import ShaderDialect.Interface
import ShaderDialect.ResourceTable.Resolve
import ShaderDialect.ShaderUnit.Check
import ShaderDialect.ShaderUnit.Reach

/-! An output that has been checked and is ready to be written for its target. -/
namespace ShaderDialect

/-- A function with what its callers have to know of it. -/
structure UnitFunction where
  function : Function
  params : List Parameter
  /-- The resources that it uses, itself or through calls, in the order of the table. -/
  resources : List String

structure ShaderUnit where
  name : String
  stage : Stage
  features : FeatureSet
  target : Target
  structs : List StructDef
  globals : List Global
  /-- Callees before their callers. -/
  helpers : List UnitFunction
  entry : UnitFunction
  interface : Interface
  table : Option ResourceTable
  threads : Option Threads
  /-- The textures that are sampled with a comparison, in order. -/
  compared : List String

namespace ShaderUnit

def struct? (u : ShaderUnit) (name : String) : Option StructDef :=
  u.structs.find? (·.name == name)

def helper? (u : ShaderUnit) (name : String) : Option UnitFunction :=
  u.helpers.find? (·.function.name == name)

def resource? (u : ShaderUnit) (name : String) : Option (Frequency × TableResource) :=
  u.table.bind (·.resource? name)

/-- All functions that are written, helpers first. -/
def functions (u : ShaderUnit) : List Function :=
  u.helpers.map UnitFunction.function ++ [u.entry.function]

end ShaderUnit

namespace EntryPoint

/-- The table of an entry point: the one it names, or the only one there is. -/
def resolvedTable (scope : String) (tables : ResourceTables) (visible : List String)
    (e : EntryPoint) : Except Failure (Option ResourceTable) :=
  match e.table, visible with
  | some name, _ =>
    if name ∈ visible then (tables.get name).map some
    else .error (.program scope (.undeclaredTable name))
  | none, [] => .ok none
  | none, [only] => (tables.get only).map some
  | none, _ => .error (.program scope (.severalTables visible))

def params (e : EntryPoint) : List Parameter :=
  e.function.params.map fun p =>
    { name := p.name, type := p.type, length := p.length, passing := .value,
      systemValue := p.systemValue }

end EntryPoint

namespace Function

/-- The parameters of a helper, which cannot take system values. -/
def helperParams (scope : String) (f : Function) : Except Failure (List Parameter) :=
  f.params.mapM fun p =>
    if p.systemValue.isSome then .error (.program scope (.helperSystemValue f.name p.name))
    else .ok { name := p.name, type := p.type, length := p.length,
               passing := .ofModifier p.modifier, systemValue := none }

/-- The first argument of a comparison that is a plain name. -/
def comparedTexture? : Fragment → Option String
  | .call "SampleCmp" ((first :: _) :: _) _ => first.word?
  | _ => none

def comparedTextures (f : Function) : List String :=
  (Fragment.nestedList f.body).filterMap comparedTexture?

end Function

namespace ShaderUnit

/-- The only entry point of a selection, which has to be of the output's stage. -/
def entryOf (o : Output) (s : Selection) : Except Failure EntryPoint :=
  match s.entries with
  | [] => .error (.program o.name (.noEntry o.stage))
  | [e] =>
    if e.stage = o.stage then .ok e
    else .error (.program o.name (.stageMismatch e.function.name e.stage o.stage))
  | _ => .error (.program o.name .manyEntries)

def failIf (scope : String) : Option ProgramFault → Except Failure Unit
  | some fault => .error (.program scope fault)
  | none => .ok ()

/-- Adds a helper whose callees have been added before. -/
def addHelper (scope : String) (own : Option ResourceTable) (others : List ResourceTable)
    (done : List UnitFunction) (f : Function) : Except Failure (List UnitFunction) := do
  failIf scope (f.foreignFault? own others)
  let params ← f.helperParams scope
  let used := done.map fun h => (h.function.name, h.resources)
  return done ++ [{ function := f, params, resources := f.usedResources own used }]

def ofOutput (p : Program) (tables : ResourceTables) (signatures : RootSignatures) (o : Output)
    (target : Target) : Except Failure ShaderUnit := do
  let scope := o.name
  let s ← Selection.ofOutput p o target
  let e ← entryOf o s
  failIf scope (e.markerFault? signatures)
  let own ← e.resolvedTable scope tables s.tables
  let interface ← Interface.ofFunction ⟨scope, e.stage, o.features⟩ s.structs e.function
  failIf scope e.bodyFault?
  let reached ← Helpers.reached scope s.functions e.function
  failIf scope (reached.findSome? Function.markerFault?)
  failIf scope ((reached ++ [e.function]).findSome? (Function.callsFault? o.features))
  let others := (s.tables.filterMap tables.get?).filter fun t => own.all (·.name != t.name)
  let helpers ← reached.foldlM (addHelper scope own others) []
  failIf scope (e.function.foreignFault? own others)
  let used := helpers.map fun h => (h.function.name, h.resources)
  return {
    name := o.name
    stage := o.stage
    features := o.features
    target
    structs := s.structs
    globals := s.globals
    helpers
    entry := { function := e.function, params := e.params,
               resources := e.function.usedResources own used }
    interface
    table := own
    threads := e.threads
    compared := Text.nameSet ((reached ++ [e.function]).flatMap Function.comparedTextures) }

end ShaderUnit
end ShaderDialect
