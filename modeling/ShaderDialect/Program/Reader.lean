import ShaderDialect.Program.Body
import ShaderDialect.Program.Marker

/-! Programs from tokens. -/
namespace ShaderDialect.Reader

/-- Members of a struct up to its closing brace or the end of a branch. One member is read here, and
those behind and inside of it as `again` says. -/
def membersRound (again : Reader (List StructMember)) : Reader (List StructMember) := do
  match (← get).rest with
  | [] => return []
  | t :: _ =>
    match t.token with
    | .delim .rbrace => return []
    | .directive name operand =>
      if opensConditional name then
        skip
        let (cond, yes, no, _) ← withFuel fun fuel =>
          conditional (fun _ : Unit => do return (← again, ()))
            (fun cond yes no _ => .branch cond yes no) fuel name operand t.loc ()
        return .branch cond yes no :: (← again)
      else if endsBranch name then return []
      else fail t.loc (.directiveInStruct name)
    | .word "DATA" =>
      let (loc, args) ← marker "DATA"
      expectCount "DATA" loc args 3
      let type := ValueType.ofName (← wordArgument loc args 0 "field type")
      let (name, length) ← nameArgument loc (args[1]?.getD [])
      let semantic ← wordArgument loc args 2 "semantic"
      eat .semicolon
      let semantic := if semantic = "None" then none else some (Semantic.ofText semantic)
      return .field { type, name, length, semantic, loc } :: (← again)
    | other => fail t.loc (.expectedField other.text)

def members : (fuel : Nat) → Reader (List StructMember)
  | 0 => exhausted
  | fuel + 1 => membersRound (members fuel)

def struct : Reader StructDecl := do
  let (loc, args) ← marker "STRUCT"
  let name ← wordArgument loc args 0 "struct name"
  expectCount "STRUCT" loc args 1
  expect .lbrace
  let ms ← withFuel members
  expect .rbrace
  eat .semicolon
  return { name, members := ms, loc }

def resourceDecl : Reader ResourceDecl := do
  let name ← peekWord
  let (loc, args) ← marker name
  expectCount name loc args 3
  let frequency ← frequencyArgument loc args 0
  let kind ← resourceArgument name loc (args[1]?.getD [])
  let (resource, length) ← nameArgument loc (args[2]?.getD [])
  return { name := resource, kind, length := length.getD 1, frequency, loc }

def isDeclaration (word : String) : Bool := "DECL_".toList.isPrefixOf word.toList

/-- Declarations of a set up to the marker that ends it. -/
def declarationsRound (finish : String) (start : Loc) (again : Reader (List ResourceDecl)) :
    Reader (List ResourceDecl) := do
  if ← isNextWord finish then return []
  match (← get).rest with
  | [] => fail start .unclosedSet
  | t :: _ =>
    match t.token with
    | .word name =>
      if isDeclaration name then
        let decl ← resourceDecl
        eat .semicolon
        return decl :: (← again)
      else fail t.loc (.expectedDeclaration name)
    | .directive _ _ => fail t.loc .directiveInTable
    | other => fail t.loc (.expectedDeclaration other.text)

def declarations (finish : String) (start : Loc) : (fuel : Nat) → Reader (List ResourceDecl)
  | 0 => exhausted
  | fuel + 1 => declarationsRound finish start (declarations finish start fuel)

def ownSet (frequency : Frequency) (loc : Loc) : Reader SetBlock := do
  let start ← here
  let decls ← withFuel (declarations "END_SRT_SET" start)
  let (endLoc, args) ← marker "END_SRT_SET"
  let found ← frequencyArgument endLoc args 0
  if found ≠ frequency then fail endLoc (.setEndMismatch "END_SRT_SET" found frequency)
  eat .semicolon
  return { frequency, decls, loc }

/-- The sets of a table up to and including the marker that ends it. -/
def tableSetsRound (name : String) (loc : Loc) (again : Reader (List SetSource)) :
    Reader (List SetSource) := do
  match (← get).rest with
  | [] => fail loc (.missingTableEnd name)
  | t :: _ =>
    match t.token with
    | .word "BEGIN_SRT_SET" =>
      let (setLoc, args) ← marker "BEGIN_SRT_SET"
      expectCount "BEGIN_SRT_SET" setLoc args 1
      let set ← ownSet (← frequencyArgument setLoc args 0) setLoc
      return .own set :: (← again)
    | .word "INCLUDE_SRT_SET" =>
      let (setLoc, args) ← marker "INCLUDE_SRT_SET"
      expectCount "INCLUDE_SRT_SET" setLoc args 1
      let shared ← wordArgument setLoc args 0 "fragment name"
      eat .semicolon
      return .shared shared setLoc :: (← again)
    | .word "END_SRT" =>
      let (endLoc, args) ← marker "END_SRT"
      let found ← wordArgument endLoc args 0 "table name"
      if found ≠ name then fail endLoc (.tableEndMismatch found name)
      eat .semicolon
      return []
    | .directive _ _ => fail t.loc .directiveInTable
    | other => fail t.loc (.unexpectedInTable other.text name)

def tableSets (name : String) (loc : Loc) : (fuel : Nat) → Reader (List SetSource)
  | 0 => exhausted
  | fuel + 1 => tableSetsRound name loc (tableSets name loc fuel)

def table : Reader TableDecl := do
  let (loc, args) ← marker "BEGIN_SRT"
  expectCount "BEGIN_SRT" loc args 1
  let name ← wordArgument loc args 0 "table name"
  let sets ← withFuel (tableSets name loc)
  return { name, sets, loc }

def sharedSet : Reader SharedSet := do
  let (loc, args) ← marker "BEGIN_SHARED_SRT_SET"
  expectCount "BEGIN_SHARED_SRT_SET" loc args 2
  let name ← wordArgument loc args 0 "fragment name"
  let frequency ← frequencyArgument loc args 1
  let decls ← withFuel (declarations "END_SHARED_SRT_SET" loc)
  let (endLoc, args) ← marker "END_SHARED_SRT_SET"
  let found ← wordArgument endLoc args 0 "fragment name"
  if found ≠ name then fail endLoc (.sharedSetEndMismatch found name)
  eat .semicolon
  return { name, set := { frequency, decls, loc } }

def marksParameter (word : String) : Bool :=
  "SV_".toList.isPrefixOf word.toList || word == "in" || word == "out" || word == "inout"

def parameterLength (loc : Loc) (name : String) : Reader (Option Nat) := do
  if !(← isNext .lbracket) then return none
  skip
  match (← next?).map Placed.token with
  | some (.int text) =>
    match integer? text with
    | some n => do
      expect .rbracket
      return some n
    | none => fail loc (.parameterLength name)
  | _ => fail loc (.parameterLength name)

def parameter : Reader Param := do
  let loc ← here
  if ← isNextWord "const" then skip
  let word ← peekWord
  let called := (← get).rest.tail.head?.map Placed.token == some (.delim .lparen)
  if called ∧ marksParameter word then
    skip
    expect .lparen
    let type := ValueType.ofName (← expectWord)
    expect .rparen
    let name ← expectWord
    let plain (modifier : Modifier) : Reader Param := do
      return {
        type, name, length := ← parameterLength loc name, modifier, systemValue := none, loc }
    match word with
    | "in" => plain .in_
    | "out" => plain .out
    | "inout" => plain .inout
    | _ =>
      match SystemValue.ofSemantic? word with
      | none => fail loc (.unknownSystemValue word)
      | some value =>
        return { type, name, length := ← parameterLength loc name, modifier := .in_,
                 systemValue := some value, loc }
  else
    let type := ValueType.ofName (← expectWord)
    let name ← expectWord
    return { type, name, length := ← parameterLength loc name, modifier := .in_,
             systemValue := none, loc }

def parametersRound (again : Reader (List Param)) : Reader (List Param) := do
  let p ← parameter
  if ← isNext .comma then
    skip
    return p :: (← again)
  else return [p]

def parameters : (fuel : Nat) → Reader (List Param)
  | 0 => exhausted
  | fuel + 1 => parametersRound (parameters fuel)

def function : Reader Function := do
  let loc ← here
  let returns := ValueType.ofName (← expectWord)
  let name ← expectWord
  expect .lparen
  let params ← if ← isNext .rparen then pure [] else withFuel parameters
  expect .rparen
  expect .lbrace
  let body ← terminated .body loc (.unclosedBody name)
  expect .rbrace
  return { name, returns, params, body, loc }

def global : Reader Item := do
  let loc ← here
  let body ← terminated .declaration loc .missingSemicolon
  expect .semicolon
  return .global { body, loc }

/-- Markers that wait for the entry point they annotate. -/
structure Pending where
  /-- The first of them, which is blamed when no entry point follows. -/
  first : Option (String × Loc) := none
  rootSignature : Option String := none
  table : Option String := none
  threads : Option Threads := none
  deriving Repr, DecidableEq

def noPending (p : Pending) : Reader Unit :=
  match p.first with
  | some (name, loc) => fail loc (.strayMarker name)
  | none => pure ()

def positive (loc : Loc) (arg : List Placed) : Reader Nat := do
  let n ← integerArgument loc arg
  if n = 0 then fail loc .zeroThreads
  return n

def prefixMarker (p : Pending) : Reader Pending := do
  let name ← peekWord
  let (loc, args) ← marker name
  eat .semicolon
  let p := { p with first := p.first.or (some (name, loc)) }
  match name with
  | "ROOT_SIGNATURE" =>
    expectCount name loc args 1
    return { p with rootSignature := some (← wordArgument loc args 0 "root signature") }
  | "USE_SRT" =>
    expectCount name loc args 1
    return { p with table := some (← wordArgument loc args 0 "table name") }
  | _ =>
    expectCount name loc args 3
    let x ← positive loc (args[0]?.getD [])
    let y ← positive loc (args[1]?.getD [])
    let z ← positive loc (args[2]?.getD [])
    return { p with threads := some { x, y, z } }

/-- Whether a declaration, after its `inline` words, is a function: a type, a name and a
parenthesis. -/
def isFunction : List Placed → Bool
  | ⟨.word type, _⟩ :: ⟨.word _, _⟩ :: ⟨.delim .lparen, _⟩ :: _ =>
    !(["static", "const", "groupshared", "return"].contains type)
  | _ => false

/-- A function, an entry point or a global, and the markers that still wait after it. -/
def declaration (p : Pending) : Reader (Item × Pending) := do
  let c ← get
  let rest := c.rest.dropWhile (·.token == .word "inline")
  if isFunction rest then
    set { c with rest }
    let f ← function
    match Stage.ofEntryName? f.name with
    | some stage =>
      return (.entry { stage, function := f, rootSignature := p.rootSignature, table := p.table,
                       threads := p.threads }, {})
    | none =>
      noPending p
      return (.function f, p)
  else
    noPending p
    return (← global, p)

/-- Where items stand, which restricts what they may be. -/
structure Context where
  inBlock : Bool := false
  inConditional : Bool := false

/-- The features and the name in the operand of a block directive. -/
def blockHeader (loc : Loc) :
    List String → FeatureSet → Option String → Reader (FeatureSet × Option String)
  | [], features, name => pure (features, name)
  | word :: words, features, name =>
    if "FT_".toList.isPrefixOf word.toList then
      match Feature.ofSymbol? word with
      | some f => blockHeader loc words (features.insert f) name
      | none => fail loc (.unknownFeature word)
    else if name.isSome then fail loc .manyOutputNames
    else blockHeader loc words features (some word)

/-- Items up to the end of the input or a directive that closes the scope, which stays. One item is
read here, and those behind and inside of it as `again` says. -/
def itemsRound (again : Context → Pending → Reader (List Item × Option Placed × Pending))
    (ctx : Context) (p : Pending) : Reader (List Item × Option Placed × Pending) := do
  let more (i : Item) (p : Pending) : Reader (List Item × Option Placed × Pending) := do
    let (is, stop, p) ← again ctx p
    return (i :: is, stop, p)
  match (← get).rest with
  | [] => return ([], none, p)
  | t :: _ =>
    match t.token with
    | .directive name operand =>
      if opensConditional name then
        skip
        let branch (p : Pending) : Reader (List Item × Pending) := do
          let (is, _, p) ← again { ctx with inConditional := true } p
          return (is, p)
        let (cond, yes, no, p) ← withFuel fun fuel =>
          conditional branch .branch fuel name operand t.loc p
        more (.branch cond yes no t.loc) p
      else if endsBranch name ∨ name = "end" then return ([], some t, p)
      else match Stage.ofBlockDirective? name with
        | none => fail t.loc (.unknownDirective name)
        | some stage =>
          if ctx.inBlock then fail t.loc .nestedBlock
          if ctx.inConditional then fail t.loc .blockInConditional
          skip
          let (features, output) ← blockHeader t.loc (Text.words operand) .empty none
          match output with
          | none => fail t.loc (.missingOutputName name)
          | some output =>
            let (is, stop, p) ← again { inBlock := true } p
            noPending p
            match stop with
            | none => fail t.loc (.missingBlockEnd output)
            | some s =>
              match s.token with
              | .directive "end" _ =>
                skip
                more (.block stage features output is t.loc) p
              | other => fail s.loc (.unexpectedInBlock other.text output)
    | .delim .semicolon =>
      skip
      again ctx p
    | .word "STRUCT" =>
      noPending p
      more (.struct (← struct)) p
    | .word "BEGIN_SRT" =>
      noPending p
      if ctx.inConditional then fail t.loc .tableInConditional
      more (.table (← table)) p
    | .word "BEGIN_SHARED_SRT_SET" =>
      noPending p
      if ctx.inConditional then fail t.loc .sharedSetInConditional
      more (.sharedSet (← sharedSet)) p
    | .word "ROOT_SIGNATURE" | .word "USE_SRT" | .word "NUM_THREADS" =>
      again ctx (← prefixMarker p)
    | .word _ =>
      let (i, p) ← declaration p
      more i p
    | _ =>
      noPending p
      more (← global) p

def items : (fuel : Nat) → Context → Pending → Reader (List Item × Option Placed × Pending)
  | 0, _, _ => exhausted
  | fuel + 1, ctx, p => itemsRound (items fuel) ctx p

def program : Reader Program := do
  let (is, stop, p) ← withFuel fun fuel => items fuel {} {}
  match stop with
  | some t => fail t.loc (.unexpected t.token.text)
  | none =>
    noPending p
    return { items := is }

end Reader

/-- The program of a list of tokens that come from a file. -/
def Program.read (file : String) (tokens : List Placed) : Except Failure Program := do
  let last := (tokens.getLast?.map (·.loc)).getD ⟨file, 1⟩
  let (p, _) ← Reader.program.run { rest := tokens, last }
  return p

end ShaderDialect
