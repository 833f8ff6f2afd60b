import ShaderDialect.Resource
import ShaderDialect.Stage
import ShaderDialect.Target
import ShaderDialect.Token

/-! What can be wrong with a program whose text can be read. -/
namespace ShaderDialect

/-- Why a program, or one of its outputs, has no meaning. -/
inductive ProgramFault
  | sharedSetDiffers
  | tableDiffers
  | tableFailed
  | unknownTable
  | unknownSharedSet (name : String) (loc : Loc)
  | setOrder (set previous : Frequency)
  | misplacedSampler (name : String) (set first : Frequency)
  | duplicateResource (name : String)
  | frequencyMismatch (name : String) (loc : Loc) (marked set : Frequency)
  | indexOverflow (name : String) (loc : Loc) (set : Frequency)
  | limit (count : Nat) (what : String) (target : Target) (ceiling : Nat)
  | entryOutsideBlock
  | duplicateStruct (name : String)
  | duplicateFunction (name : String)
  | noEntry (stage : Stage)
  | manyEntries
  | stageMismatch (entry : String) (stage block : Stage)
  | missingThreads
  | misplacedThreads
  | computeReturn
  | rootSignature (found : String) (graphics : Bool) (expected : String)
  | undeclaredTable (name : String)
  | severalTables (names : List String)
  | invalidSystemValue (value : SystemValue) (stage : Stage) (output : Bool)
  | primitiveIdFeature
  | viewIdFeature
  | missingTargetSemantic (struct field : String)
  | stageFieldType (struct field : String)
  | entryModifier (param : String)
  | manyStageStructs
  | unknownStruct (name : String)
  | entryParameter (param : String)
  | bareReturn (stage : Stage) (type : ValueType)
  | missingPosition
  | helperSystemValue (helper param : String)
  | returnNeedsValue (loc : Loc)
  | returnMustBeEmpty (loc : Loc)
  | plainReturn (loc : Loc)
  | initMain (entry : String)
  | entryOnly (what : String) (loc : Loc) (helper : String)
  | matrixConstructor (name : String) (loc : Loc) (columns rows : Nat)
  | subgroupFeature (name : String) (loc : Loc)
  | recursion (caller callee : String)
  | foreignResource (name : String) (loc : Loc) (owner table : String)
  | unselectedResource (name : String) (loc : Loc) (owner : String)
  | needsResource (position : Nat) (call : String) (loc : Loc)
  | needsReadWrite (call : String) (loc : Loc)
  | samplesNonTexture (call : String) (loc : Loc)
  | argumentCount (call : String) (loc : Loc) (expected : List Nat) (found : Nat)
  | unresolvedConditional (loc : Loc)
  deriving Repr, DecidableEq

def ProgramFault.message : ProgramFault → String
  | sharedSetDiffers => "shared set declared twice with different contents"
  | tableDiffers => "resource table declared twice with different contents"
  | tableFailed => "resource table failed to resolve"
  | unknownTable => "unknown resource table"
  | unknownSharedSet name loc => s!"unknown shared set '{name}' included at {loc}"
  | setOrder set previous =>
    s!"set {set.name} follows set {previous.name}; sets must appear once each in frequency order"
  | misplacedSampler name set first =>
    s!"sampler '{name}' is declared in set {set.name}; " ++
      s!"samplers are only allowed in the first set ({first.name})"
  | duplicateResource name => s!"resource '{name}' is declared more than once"
  | frequencyMismatch name loc marked set =>
    s!"'{name}' at {loc} is marked {marked.name} inside a {set.name} set"
  | indexOverflow name loc set =>
    s!"'{name}' at {loc} overflows the index range of the {set.name} set"
  | limit count what target ceiling =>
    s!"{count} {what} exceed the {target.name} limit of {ceiling} without extended binding"
  | entryOutsideBlock =>
    "entry points must be inside a shader block when the file declares blocks"
  | duplicateStruct name => s!"struct '{name}' is defined twice"
  | duplicateFunction name => s!"function '{name}' is defined twice"
  | noEntry stage => s!"no {stage.name} entry point"
  | manyEntries => "more than one entry point"
  | stageMismatch entry stage block =>
    s!"'{entry}' is a {stage.name} entry point inside a {block.name} block"
  | missingThreads => "compute entry point needs NUM_THREADS(x, y, z)"
  | misplacedThreads => "NUM_THREADS only applies to compute entry points"
  | computeReturn => "compute entry point must return void"
  | rootSignature found graphics expected =>
    s!"root signature '{found}' does not match the " ++
      (if graphics then "graphics" else "compute") ++
      s!" signature '{expected}' shared by this build"
  | undeclaredTable name => s!"USE_SRT({name}) names a table that is not declared for this output"
  | severalTables names =>
    "several resource tables are visible (" ++ ", ".intercalate names ++
      "); select one with USE_SRT"
  | invalidSystemValue value stage output =>
    s!"{value.semantic} is not a valid {stage.name} " ++ if output then "output" else "input"
  | primitiveIdFeature => "SV_PrimitiveID requires the FT_PRIM_ID feature flag"
  | viewIdFeature => "SV_ViewID requires the FT_MULTIVIEW feature flag"
  | missingTargetSemantic struct field =>
    s!"pixel output '{struct}.{field}' needs an SV_Target semantic"
  | stageFieldType struct field =>
    s!"stage field '{struct}.{field}' must have a scalar, vector or matrix type"
  | entryModifier param => s!"entry point parameter '{param}' cannot be out or inout"
  | manyStageStructs => "entry point takes more than one stage-input struct"
  | unknownStruct name => s!"unknown struct '{name}'"
  | entryParameter param =>
    s!"entry point parameter '{param}' must be a stage-input struct or a system value"
  | bareReturn stage type => s!"a {stage.name} entry point cannot return a bare '{type.name}'"
  | missingPosition => "vertex output must include an SV_Position field"
  | helperSystemValue helper param => s!"helper '{helper}' cannot take system value '{param}'"
  | returnNeedsValue loc => s!"RETURN at {loc} must supply exactly one value"
  | returnMustBeEmpty loc => s!"RETURN at {loc} must be empty in a void entry point"
  | plainReturn loc => s!"use RETURN(...) instead of 'return' at {loc}"
  | initMain entry => s!"entry point '{entry}' must start with exactly one INIT_MAIN"
  | entryOnly what loc helper =>
    s!"{what} at {loc} is only valid in entry points; '{helper}' is a helper"
  | matrixConstructor name loc columns rows =>
    s!"matrix constructor '{name}' at {loc} is ambiguous across targets; " ++
      s!"use make_f{columns}x{rows}_cols or make_f{columns}x{rows}_rows"
  | subgroupFeature name loc => s!"'{name}' at {loc} requires the FT_SUBGROUP_OPS feature flag"
  | recursion caller callee => s!"recursive call from '{caller}' to '{callee}'"
  | foreignResource name loc owner table =>
    s!"resource '{name}' used at {loc} belongs to table '{owner}', not '{table}'"
  | unselectedResource name loc owner =>
    s!"resource '{name}' used at {loc} belongs to table '{owner}'; select it with USE_SRT"
  | needsResource position call loc =>
    s!"argument {position} of '{call}' at {loc} must name a resource"
  | needsReadWrite call loc => s!"'{call}' at {loc} needs a read-write resource"
  | samplesNonTexture call loc => s!"'{call}' at {loc} samples a non-texture"
  | argumentCount call loc expected found =>
    s!"'{call}' at {loc} takes " ++ " or ".intercalate (expected.map toString) ++
      s!" arguments, got {found}"
  | unresolvedConditional loc => s!"unresolved conditional block at {loc}"

end ShaderDialect
