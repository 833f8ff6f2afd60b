import ShaderDialect.Condition.Reader
import ShaderDialect.Resource

/-! What can be wrong with the text of a source. -/
namespace ShaderDialect

inductive SourceFault
  | scan (fault : ScanFault)
  | condition (fault : ConditionFault)
  | malformedInclude (operand : String)
  | missingInclude (file : String)
  | includeCycle (file : String)
  | unsupportedDirective (name : String)
  | unexpected (text : String)
  | unknownDirective (name : String)
  | nestedBlock
  | blockInConditional
  | tableInConditional
  | sharedSetInConditional
  | strayBranch (found opened : String)
  | unclosedConditionalAt (opened : String) (line : Nat)
  | unclosedConditional (opened : String)
  | expectedDirective (name : String) (line : Nat)
  | missingDirective (name : String)
  | unknownFeature (symbol : String)
  | manyOutputNames
  | missingOutputName (directive : String)
  | unexpectedInBlock (text block : String)
  | missingBlockEnd (block : String)
  | directiveInStruct (name : String)
  | expectedField (found : String)
  | missingTableEnd (table : String)
  | tableEndMismatch (found opened : String)
  | directiveInTable
  | unexpectedInTable (text table : String)
  | sharedSetEndMismatch (found opened : String)
  | setEndMismatch (marker : String) (found opened : Frequency)
  | unclosedSet
  | expectedDeclaration (found : String)
  | zeroThreads
  | strayMarker (marker : String)
  | unclosedBody (function : String)
  | unknownSystemValue (name : String)
  | parameterLength (name : String)
  | missingSemicolon
  | directiveInBody (name : String)
  | unbalanced (text : String)
  | unclosedArguments
  | emptyArgument
  | expectedMarker (marker : String)
  | unclosedMarker (marker : String)
  | splitMarker (marker : String)
  | expected (delimiter : Delimiter) (found : Option Token)
  | expectedWord (found : Option Token)
  | argumentCount (marker : String) (expected found : Nat)
  | expectedArgument (what : String) (position : Nat)
  | unknownFrequency (name : String)
  | invalidInteger (text : String)
  | expectedInteger
  | arrayTooLong (length : Nat) (name : String) (limit : Nat)
  | arrayLength (name : String)
  | unboundedArray (name : String)
  | expectedName
  | malformedResource (marker : String)
  | wrongResource (marker type : String)
  deriving Repr, DecidableEq

def SourceFault.message : SourceFault → String
  | scan fault => fault.message
  | condition fault => fault.message
  | malformedInclude operand => s!"malformed #include '{operand}'"
  | missingInclude file => s!"cannot find include file '{file}'"
  | includeCycle file => s!"include cycle through '{file}'"
  | unsupportedDirective name => s!"'#{name}' is not supported; use feature flags instead"
  | unexpected text => s!"unexpected '{text}'"
  | unknownDirective name => s!"unknown directive '#{name}'"
  | nestedBlock => "shader blocks cannot be nested"
  | blockInConditional => "shader blocks cannot appear inside conditional blocks"
  | tableInConditional => "resource tables cannot appear inside conditional blocks"
  | sharedSetInConditional => "shared resource sets cannot appear inside conditional blocks"
  | strayBranch found opened => s!"'#{found}' inside an unterminated '#{opened}' block"
  | unclosedConditionalAt opened line => s!"unterminated '#{opened}' block opened at line {line}"
  | unclosedConditional opened => s!"unterminated '#{opened}' block"
  | expectedDirective name line => s!"expected '#{name}' for block opened at line {line}"
  | missingDirective name => s!"missing '#{name}'"
  | unknownFeature symbol => s!"unknown feature flag '{symbol}'"
  | manyOutputNames => "shader block declares more than one output name"
  | missingOutputName directive => s!"shader block '#{directive}' is missing an output name"
  | unexpectedInBlock text block => s!"unexpected '{text}' in shader block '{block}'"
  | missingBlockEnd block => s!"shader block '{block}' is missing '#end'"
  | directiveInStruct name => s!"'#{name}' is not allowed inside a struct"
  | expectedField found => s!"expected DATA(type, name, semantic) in struct, found '{found}'"
  | missingTableEnd table => s!"resource table '{table}' is missing END_SRT"
  | tableEndMismatch found opened => s!"END_SRT({found}) closes BEGIN_SRT({opened})"
  | directiveInTable => "conditional blocks are not allowed inside resource tables"
  | unexpectedInTable text table => s!"unexpected '{text}' in resource table '{table}'"
  | sharedSetEndMismatch found opened =>
    s!"END_SHARED_SRT_SET({found}) closes BEGIN_SHARED_SRT_SET({opened})"
  | setEndMismatch marker found opened => s!"{marker}({found.name}) closes a {opened.name} set"
  | unclosedSet => "unterminated resource set"
  | expectedDeclaration found => s!"expected a DECL_ marker, found '{found}'"
  | zeroThreads => "NUM_THREADS dimensions must be positive"
  | strayMarker marker => s!"'{marker}' must directly precede an entry point"
  | unclosedBody function => s!"unterminated body of '{function}'"
  | unknownSystemValue name => s!"unknown system value '{name}'"
  | parameterLength name => s!"parameter '{name}' needs a constant array length"
  | missingSemicolon => "expected ';' after declaration"
  | directiveInBody name => s!"'#{name}' is not allowed inside a function body"
  | unbalanced text => s!"unbalanced '{text}'"
  | unclosedArguments => "unterminated argument list"
  | emptyArgument => "empty argument"
  | expectedMarker marker => s!"expected '{marker}'"
  | unclosedMarker marker => s!"unterminated '{marker}'"
  | splitMarker marker => s!"marker '{marker}' must be written on a single line"
  | expected delimiter none => s!"expected '{delimiter.text}', found 'end of input'"
  | expected delimiter (some t) => s!"expected '{delimiter.text}', found '{t.text}'"
  | expectedWord none => "expected identifier, found end of input"
  | expectedWord (some t) => s!"expected identifier, found '{t.text}'"
  | argumentCount marker count found => s!"'{marker}' takes {count} argument(s), found {found}"
  | expectedArgument what position => s!"expected {what} as argument {position}"
  | unknownFrequency name =>
    s!"unknown frequency '{name}' (expected Persistent, PerFrame, PerBatch or PerDraw)"
  | invalidInteger text => s!"invalid integer '{text}'"
  | expectedInteger => "expected an integer constant"
  | arrayTooLong length name limit =>
    s!"array length {length} of '{name}' exceeds the limit of {limit}"
  | arrayLength name => s!"array length of '{name}' must be a positive constant"
  | unboundedArray name => s!"unbounded array '{name}' needs an explicit length"
  | expectedName => "expected a name or name[N]"
  | malformedResource marker => s!"malformed resource type in '{marker}'"
  | wrongResource marker type => s!"'{marker}' cannot declare a resource of type '{type}'"

end ShaderDialect
