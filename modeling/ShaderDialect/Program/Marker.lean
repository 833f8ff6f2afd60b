import ShaderDialect.Program
import ShaderDialect.Program.Cursor

/-! Markers: a word and its arguments in parentheses, all on one line. -/
namespace ShaderDialect.Reader

/-- The arguments of a marker up to its closing parenthesis. The first of the answer continues the
argument that is being read. One token is read here, and those behind it as `again` says. -/
def markerRound (marker : String) (loc : Loc) (again : (depth : Nat) → Reader (List (List Placed)))
    (depth : Nat) : Reader (List (List Placed)) := do
  match ← next? with
  | none => fail loc (.unclosedMarker marker)
  | some t =>
    if t.loc ≠ loc then fail loc (.splitMarker marker)
    let push (depth : Nat) : Reader (List (List Placed)) := do
      let args ← again depth
      return (t :: args.headD []) :: args.tail
    match t.token with
    | .delim .rparen => if depth = 0 then return [[]] else push (depth - 1)
    | .delim .comma => if depth = 0 then return [] :: (← again 0) else push depth
    | .delim .lparen | .delim .lbracket => push (depth + 1)
    | .delim .rbracket => push (depth - 1)
    | _ => push depth

def markerArguments (marker : String) (loc : Loc) :
    (fuel depth : Nat) → Reader (List (List Placed))
  | 0, _ => exhausted
  | fuel + 1, depth => markerRound marker loc (markerArguments marker loc fuel) depth

def marker (name : String) : Reader (Loc × List (List Placed)) := do
  let loc ← here
  if !(← isNextWord name) then fail loc (.expectedMarker name)
  skip
  expect .lparen
  let args ← withFuel fun fuel => markerArguments name loc fuel 0
  return (loc, if args matches [[]] then [] else args)

def expectCount (marker : String) (loc : Loc) (args : List (List Placed)) (count : Nat) :
    Reader Unit :=
  if args.length = count then pure () else fail loc (.argumentCount marker count args.length)

/-- The argument at a position counted from 0, which must be a single word. -/
def wordArgument (loc : Loc) (args : List (List Placed)) (position : Nat) (what : String) :
    Reader String :=
  match args[position]? with
  | some [⟨.word name, _⟩] => pure name
  | _ => fail loc (.expectedArgument what (position + 1))

def frequencyArgument (loc : Loc) (args : List (List Placed)) (position : Nat) :
    Reader Frequency := do
  let name ← wordArgument loc args position "frequency"
  match Frequency.ofName? name with
  | some f => return f
  | none => fail loc (.unknownFrequency name)

/-- Integer literals stand for numbers below this bound. -/
def integerBound : Nat := 1 <<< 32

/-- The number of an integer literal, whose suffixes do not count. -/
def integer? (text : String) : Option Nat :=
  let digits := (text.toList.reverse.dropWhile Scan.isIntSuffix).reverse
  match digits with
  | '0' :: 'x' :: hex | '0' :: 'X' :: hex => Text.boundedNumeral? 16 integerBound hex
  | _ => Text.boundedNumeral? 10 integerBound digits

def integerArgument (loc : Loc) (arg : List Placed) : Reader Nat :=
  match arg with
  | [⟨.int text, _⟩] =>
    match integer? text with
    | some n => pure n
    | none => fail loc (.invalidInteger text)
  | _ => fail loc .expectedInteger

/-- The largest array that a declaration may name. -/
def maxArrayLength : Nat := 1 <<< 20

/-- A name, or a name and an array length in brackets. -/
def nameArgument (loc : Loc) (arg : List Placed) : Reader (String × Option Nat) :=
  match arg.map Placed.token with
  | [.word name] => pure (name, none)
  | [.word name, .delim .lbracket, .int text, .delim .rbracket] =>
    match integer? text with
    | some n =>
      if n > maxArrayLength then fail loc (.arrayTooLong n name maxArrayLength)
      else if n = 0 then fail loc (.arrayLength name)
      else pure (name, some n)
    | none => fail loc (.arrayLength name)
  | [.word name, .delim .lbracket, .delim .rbracket] => fail loc (.unboundedArray name)
  | _ => fail loc .expectedName

/-- The kind of resource that a marker declares with a type and its element type. -/
def resourceKind? (marker type : String) (elem : Option ValueType) : Option ResourceKind :=
  match marker, elem with
  | "DECL_SAMPLER", none =>
    if type = "SamplerState" then some (.sampler false)
    else if type = "SamplerComparisonState" then some (.sampler true)
    else none
  | "DECL_TEXTURE", some e =>
    match TextureShape.ofName? type with
    | some (shape, false) => some (.texture shape e)
    | _ => none
  | "DECL_RWTEXTURE", some e =>
    match TextureShape.ofName? type with
    | some (.tex2DMS, true) => none
    | some (shape, true) => some (.rwTexture shape e)
    | _ => none
  | "DECL_BUFFER", some e => if type = "Buffer" then some (.buffer e) else none
  | "DECL_RWBUFFER", some e => if type = "RWBuffer" then some (.rwBuffer e) else none
  | "DECL_CBUFFER", some e =>
    if type = "CBUFFER" ∨ type = "ConstantBuffer" then some (.constantBuffer e) else none
  | _, _ => none

def resourceArgument (marker : String) (loc : Loc) (arg : List Placed) : Reader ResourceKind :=
  let build (type : String) (elem : Option ValueType) : Reader ResourceKind :=
    match resourceKind? marker type elem with
    | some kind => pure kind
    | none => fail loc (.wrongResource marker type)
  match arg.map Placed.token with
  | [.word type] => build type none
  | [.word type, .delim .lparen, .word elem, .delim .rparen] =>
    build type (some (ValueType.ofName elem))
  | _ => fail loc (.malformedResource marker)

end ShaderDialect.Reader
