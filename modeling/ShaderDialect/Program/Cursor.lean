import ShaderDialect.Failure

/-! Reading from a list of tokens. -/
namespace ShaderDialect

/-- The tokens that are left, and the place that messages name when none is. -/
structure Cursor where
  rest : List Placed
  last : Loc
  deriving Repr

abbrev Reader := StateT Cursor (Except Failure)

namespace Reader

def fail {α : Type} (loc : Loc) (fault : SourceFault) : Reader α := throw (.source loc fault)

/-- The place of the next token, or of the last one at the end. -/
def here : Reader Loc := do
  let c ← get
  return (c.rest.head?.map (·.loc)).getD c.last

def peek? : Reader (Option Token) := return (← get).rest.head?.map (·.token)

def next? : Reader (Option Placed) := do
  let c ← get
  match c.rest with
  | [] => return none
  | t :: ts => do
    set { c with rest := ts }
    return some t

def skip : Reader Unit := modify fun c => { c with rest := c.rest.tail }

def isNext (d : Delimiter) : Reader Bool := return (← peek?) == some (.delim d)

def isNextWord (name : String) : Reader Bool := return (← peek?) == some (.word name)

def eat (d : Delimiter) : Reader Unit := do
  if ← isNext d then skip

def expect (d : Delimiter) : Reader Unit := do
  if ← isNext d then skip
  else fail (← here) (.expected d (← peek?))

def peekWord : Reader String := do
  match ← peek? with
  | some (.word name) => return name
  | found => fail (← here) (.expectedWord found)

def expectWord : Reader String := do
  let name ← peekWord
  skip
  return name

/-- Runs on the tokens that are left with fuel for each of them. -/
def withFuel {α : Type} (read : Nat → Reader α) : Reader α := do
  read (2 * (← get).rest.length + 2)

/-- A reader without fuel gives up; `withFuel` gives enough of it. -/
def exhausted {α : Type} : Reader α := throw .cancelled

end Reader
end ShaderDialect
