import ShaderDialect.Selection

/-! What crosses the boundary of an entry point: stage inputs, system values and stage outputs. -/
namespace ShaderDialect

inductive Passing
  | value | out | inout
  deriving Repr, DecidableEq, Inhabited

def Passing.ofModifier : Modifier → Passing
  | .in_ => value
  | .out => out
  | .inout => inout

/-- Whether writes to the parameter have to reach the caller. -/
def Passing.byReference (p : Passing) : Bool := p != value

structure Parameter where
  name : String
  type : ValueType
  length : Option Nat
  passing : Passing
  systemValue : Option SystemValue
  deriving Repr, DecidableEq, Inhabited

inductive VaryingBinding
  | location (n : Nat)
  | system (value : SystemValue)
  deriving Repr, DecidableEq, Inhabited

structure Varying where
  /-- The field of the struct that carries it; without one the value itself is the output. -/
  field : Option String
  type : ValueType
  length : Option Nat
  binding : VaryingBinding
  /-- The semantic of a varying that is not a system value. -/
  semantic : Option String
  deriving Repr, DecidableEq, Inhabited

structure Interface where
  stage : Stage
  /-- The parameter that takes the stage inputs, and its struct. -/
  structParam : Option (String × String)
  inputs : List Varying
  /-- The parameters that take system values. -/
  systemValues : List Parameter
  outputs : List Varying
  deriving Repr, DecidableEq, Inhabited

def VaryingBinding.toJson : VaryingBinding → Json
  | location n => .obj [("location", .nat n)]
  | system v => .obj [("system", v.toJson)]

def Varying.isSystem (v : Varying) (value : SystemValue) : Bool := v.binding == .system value

def Varying.toJson (v : Varying) : Json :=
  .obj [("field", .ofOption .str v.field), ("ty", v.type.toJson),
    ("array_len", .ofOption .nat v.length), ("binding", v.binding.toJson),
    ("semantic", .ofOption .str v.semantic)]

/-- Whether a stage has the system value as an input or as an output. -/
def SystemValue.allowed (v : SystemValue) (stage : Stage) (output : Bool) : Bool :=
  match stage, output, v with
  | .vertex, false, vertexId | .vertex, false, instanceId | .vertex, false, viewId
  | .vertex, true, position
  | .pixel, false, position | .pixel, false, primitiveId | .pixel, false, isFrontFace
  | .pixel, false, viewId
  | .pixel, true, target _ | .pixel, true, depth
  | .compute, false, dispatchThreadId | .compute, false, groupThreadId
  | .compute, false, groupId | .compute, false, groupIndex => true
  | _, _, _ => false

/-- What is wrong with a system value at this place. -/
def SystemValue.fault? (v : SystemValue) (stage : Stage) (output : Bool) (features : FeatureSet) :
    Option ProgramFault :=
  if !v.allowed stage output then some (.invalidSystemValue v stage output)
  else if v = primitiveId ∧ !features.contains .primId then some .primitiveIdFeature
  else if v = viewId ∧ !features.contains .multiview then some .viewIdFeature
  else none

namespace Interface

structure Site where
  /-- The output that is named when something is wrong. -/
  scope : String
  stage : Stage
  features : FeatureSet

def Site.fail {α : Type} (s : Site) (fault : ProgramFault) : Except Failure α :=
  .error (.program s.scope fault)

def Site.check (s : Site) : Option ProgramFault → Except Failure Unit
  | some fault => s.fail fault
  | none => .ok ()

/-- The types that cannot cross a stage boundary. -/
def cannotCross (t : ValueType) : Bool :=
  match t with
  | .struct _ => true
  | t => t.isAtomic

/-- How a field is bound. The outputs of a pixel shader are all system values. -/
def bindingOf (site : Site) (output : Bool) (struct : String) (next : Nat) (f : Field) :
    Except Failure VaryingBinding :=
  match f.semantic.bind Semantic.systemValue? with
  | some v =>
    match v.fault? site.stage output site.features with
    | some fault => site.fail fault
    | none => .ok (.system v)
  | none =>
    if site.stage = .pixel ∧ output then site.fail (.missingTargetSemantic struct f.name)
    else .ok (.location next)

/-- How many locations there are; after the last one they start again from zero. -/
def locationRange : Nat := 1 <<< 32

/-- The varyings of a struct's fields. Fields that are not system values take the locations from
`next` on, an array as many as it has elements. -/
def varyings (site : Site) (output : Bool) (struct : String) :
    (next : Nat) → List Field → Except Failure (List Varying)
  | _, [] => .ok []
  | next, f :: fs => do
    let binding ← bindingOf site output struct next f
    if cannotCross f.type then site.fail (.stageFieldType struct f.name)
    else
      let semantic :=
        match binding with
        | .system _ => none
        | .location _ => f.semantic.map Semantic.text
      let after :=
        match binding with
        | .system _ => next
        | .location n => (n + f.length.getD 1) % locationRange
      let rest ← varyings site output struct after fs
      return { field := some f.name, type := f.type, length := f.length, binding, semantic } :: rest

def structVaryings (site : Site) (output : Bool) (structs : List StructDef) (name : String) :
    Except Failure (List Varying) :=
  match structs.find? (·.name == name) with
  | none => site.fail (.unknownStruct name)
  | some d => varyings site output d.name 0 d.fields

/-- Takes one parameter of an entry point into its interface. -/
def addParam (site : Site) (structs : List StructDef) (i : Interface) (p : Param) :
    Except Failure Interface := do
  if p.modifier ≠ .in_ then site.fail (.entryModifier p.name)
  match p.systemValue, p.type with
  | some v, _ =>
    site.check (v.fault? site.stage false site.features)
    return { i with systemValues := i.systemValues ++
      [{ name := p.name, type := p.type, length := p.length, passing := .value,
         systemValue := some v }] }
  | none, .struct name =>
    if i.structParam.isSome then site.fail .manyStageStructs
    let inputs ← structVaryings site false structs name
    return { i with structParam := some (p.name, name), inputs }
  | none, _ => site.fail (.entryParameter p.name)

/-- A pixel shader can return a value that is not a struct; it goes to the first target. -/
def outputsOf (site : Site) (structs : List StructDef) (returns : ValueType) :
    Except Failure (List Varying) :=
  match returns with
  | .void => .ok []
  | .struct name => structVaryings site true structs name
  | type =>
    if site.stage = .pixel then
      .ok [⟨none, type, none, .system (.target 0), none⟩]
    else site.fail (.bareReturn site.stage type)

/-- The interface of an entry point. A vertex shader has to write a position. -/
def ofFunction (site : Site) (structs : List StructDef) (f : Function) :
    Except Failure Interface := do
  let i ← f.params.foldlM (addParam site structs)
    { stage := site.stage, structParam := none, inputs := [], systemValues := [], outputs := [] }
  let outputs ← outputsOf site structs f.returns
  if site.stage = .vertex ∧ !outputs.any (·.isSystem .position) then site.fail .missingPosition
  return { i with outputs }

end Interface
end ShaderDialect
