import ShaderDialect.Fragment
import ShaderDialect.Program.Conditional

/-! Fragments of bodies and globals. -/
namespace ShaderDialect.Reader

/-- What ends a list of fragments, outside of all brackets. -/
inductive Terminator
  | body
  | declaration
  | argument
  deriving Repr, DecidableEq

def Terminator.ends : Terminator → Token → Bool
  | body, .delim .rbrace => true
  | declaration, .delim .semicolon => true
  | argument, .delim .comma | argument, .delim .rparen => true
  | _, _ => false

inductive Stop
  | terminator
  | branch
  | endOfInput
  deriving Repr, DecidableEq

/-- Words that are statements, not calls, before a parenthesis. -/
def statementWords : List String :=
  ["if", "for", "while", "switch", "return", "do", "else", "case", "sizeof"]

/-- Fragments up to a terminator, a directive that ends the branch, or the end of the input, none of
which is taken. `depth` counts the open brackets. One fragment is read here, and those behind and
inside of it as `again` and `arguments` say. -/
def fragmentsRound (again : Terminator → (depth : Nat) → Reader (List Fragment × Stop))
    (arguments : Loc → Reader (List (List Fragment) × Loc)) (term : Terminator) (depth : Nat) :
    Reader (List Fragment × Stop) := do
  let more (f : Fragment) (depth : Nat) : Reader (List Fragment × Stop) := do
    let (fs, stop) ← again term depth
    return (f :: fs, stop)
  match (← get).rest with
  | [] => return ([], .endOfInput)
  | t :: after =>
    if depth = 0 ∧ term.ends t.token then return ([], .terminator)
    match t.token with
    | .directive name operand =>
      if opensConditional name then
        skip
        let (cond, yes, no, _) ← withFuel fun fuel =>
          conditional (fun _ : Unit => do return ((← again term 0).1, ())) .branch fuel name operand
            t.loc ()
        more (.branch cond yes no t.loc) depth
      else if endsBranch name then return ([], .branch)
      else fail t.loc (.directiveInBody name)
    | .word name =>
      let called := after.head?.map Placed.token == some (.delim .lparen)
      if name = "INIT_MAIN" then
        skip
        expect .semicolon
        more (.initMain t.loc) depth
      else if name = "RETURN" ∧ called then
        skip
        expect .lparen
        let (args, close) ← arguments t.loc
        if close ≠ t.loc then fail t.loc (.splitMarker "RETURN")
        eat .semicolon
        more (.ret args t.loc) depth
      else if called ∧ name ∉ statementWords then
        skip
        expect .lparen
        let (args, _) ← arguments t.loc
        more (.call name args t.loc) depth
      else
        skip
        more (.token t) depth
    | .delim d =>
      if d.opens then
        skip
        more (.token t) (depth + 1)
      else if d.closes then
        if depth = 0 then fail t.loc (.unbalanced d.text)
        skip
        more (.token t) (depth - 1)
      else
        skip
        more (.token t) depth
    | _ =>
      skip
      more (.token t) depth

/-- The arguments of a call after its opening parenthesis, and the place of the closing one. Only a
call without arguments may leave one empty. -/
def argumentsRound (argument : Reader (List Fragment × Stop))
    (again : (first : Bool) → Reader (List (List Fragment) × Loc)) (loc : Loc) (first : Bool) :
    Reader (List (List Fragment) × Loc) := do
  let (arg, stop) ← argument
  if stop ≠ .terminator then fail loc .unclosedArguments
  match ← next? with
  | none => fail loc .unclosedArguments
  | some t =>
    let closing := t.token == .delim .rparen
    if closing ∧ arg.isEmpty ∧ first then return ([], t.loc)
    if arg.isEmpty then fail loc .emptyArgument
    if closing then return ([arg], t.loc)
    let (args, close) ← again false
    return (arg :: args, close)

mutual
def fragments : (fuel : Nat) → Terminator → (depth : Nat) → Reader (List Fragment × Stop)
  | 0, _, _ => exhausted
  | fuel + 1, term, depth => fragmentsRound (fragments fuel) (arguments fuel · true) term depth

def arguments : (fuel : Nat) → Loc → (first : Bool) → Reader (List (List Fragment) × Loc)
  | 0, _, _ => exhausted
  | fuel + 1, loc, first =>
    argumentsRound (fragments fuel .argument 0) (arguments fuel loc) loc first
end

/-- A list of fragments, which must end with its terminator. -/
def terminated (term : Terminator) (loc : Loc) (fault : SourceFault) : Reader (List Fragment) := do
  let (fs, stop) ← withFuel fun fuel => fragments fuel term 0
  if stop ≠ .terminator then fail loc fault
  return fs

end ShaderDialect.Reader
