import ShaderDialect.Failure
import ShaderDialect.Program

/-! Rules for the markers and bodies of entry points and helpers. -/
namespace ShaderDialect

/-- The root signatures that all entry points of a build share. -/
structure RootSignatures where
  graphics : String
  compute : String
  deriving Repr, DecidableEq

def RootSignatures.standard : RootSignatures := ⟨"DefaultRootSignature", "ComputeRootSignature"⟩

def RootSignatures.ofStage (s : RootSignatures) (stage : Stage) : String :=
  if stage.isGraphics then s.graphics else s.compute

namespace EntryPoint

def markerFault? (signatures : RootSignatures) (e : EntryPoint) : Option ProgramFault :=
  if e.stage = .compute ∧ e.threads = none then some .missingThreads
  else if e.stage ≠ .compute ∧ e.threads ≠ none then some .misplacedThreads
  else if e.stage = .compute ∧ e.function.returns ≠ .void then some .computeReturn
  else
    match e.rootSignature with
    | none => none
    | some found =>
      let expected := signatures.ofStage e.stage
      if found = expected then none
      else some (.rootSignature found e.stage.isGraphics expected)

def fragmentFault? (returns : ValueType) : Fragment → Option ProgramFault
  | .ret args loc =>
    if returns = .void then if args.isEmpty then none else some (.returnMustBeEmpty loc)
    else if args.length = 1 then none
    else some (.returnNeedsValue loc)
  | .token ⟨.word "return", loc⟩ => some (.plainReturn loc)
  | _ => none

/-- The body starts with its only `INIT_MAIN`. -/
def startsOnce (body : List Fragment) : Bool :=
  match body with
  | .initMain _ :: _ => ((Fragment.nestedList body).filter fun
      | .initMain _ => true
      | _ => false).length = 1
  | _ => false

def bodyFault? (e : EntryPoint) : Option ProgramFault :=
  match (Fragment.nestedList e.function.body).findSome? (fragmentFault? e.function.returns) with
  | some fault => some fault
  | none => if startsOnce e.function.body then none else some (.initMain e.function.name)

end EntryPoint

namespace Function

/-- The first entry marker in the body of a helper. -/
def markerFault? (f : Function) : Option ProgramFault :=
  (Fragment.nestedList f.body).findSome? fun
    | .initMain loc => some (.entryOnly "INIT_MAIN" loc f.name)
    | .ret _ loc => some (.entryOnly "RETURN" loc f.name)
    | _ => none

/-- Targets disagree on what a matrix constructor with several arguments means, and operations on
waves need a feature. -/
def callFault? (features : FeatureSet) : Fragment → Option ProgramFault
  | .call name args loc =>
    match ValueType.builtin? name with
    | some (.matrix _ columns rows) =>
      if 1 < args.length then some (.matrixConstructor name loc columns rows) else none
    | _ =>
      if "Wave".toList.isPrefixOf name.toList ∧ !features.contains .subgroupOps then
        some (.subgroupFeature name loc)
      else none
  | _ => none

def callsFault? (features : FeatureSet) (f : Function) : Option ProgramFault :=
  (Fragment.nestedList f.body).findSome? (callFault? features)

end Function
end ShaderDialect
