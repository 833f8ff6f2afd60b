import ShaderDialect.Emit.Expression

/-! Bodies of functions in a target's language. Where an index must not differ between invocations,
a statement with such an index becomes a loop over the array. -/
namespace ShaderDialect

/-- An element of a resource array under an index that differs between invocations. -/
structure NonUniformAccess where
  resource : String
  index : List Fragment
  loc : Loc

namespace NonUniformAccess

mutual
/-- The first access inside a fragment, given the two fragments before it, the nearer one first. -/
def inFragment? (before : List Fragment) : Fragment → Option NonUniformAccess
  | .call name args loc =>
    if name = Writer.nonUniformCall then
      match before, args with
      | bracket :: array :: _, index :: _ =>
        if bracket.isDelimiter .lbracket then array.word?.map fun resource => ⟨resource, index, loc⟩
        else none
      | _, _ => none
    else inArguments? args
  | .ret args _ => inArguments? args
  | _ => none

def inFragments? (before : List Fragment) : List Fragment → Option NonUniformAccess
  | [] => none
  | f :: fs =>
    match inFragment? before f with
    | some a => some a
    | none => inFragments? (f :: before) fs

def inArguments? : List (List Fragment) → Option NonUniformAccess
  | [] => none
  | arg :: args =>
    match inFragments? [] arg with
    | some a => some a
    | none => inArguments? args
end

def first? (statement : List Fragment) : Option NonUniformAccess := inFragments? [] statement

end NonUniformAccess

namespace Writer
variable (w : Writer)

/-- The variable that a statement declares and sets: its type and name stand before `=`. -/
def declared? : List Fragment → Option String
  | type :: name :: equals :: _ => do
    let t ← type.word?
    let n ← name.word?
    if equals.token? = some (.op "=") ∧
        ((ValueType.builtin? t).isSome ∨ (w.unit.struct? t).isSome) then some n
    else none
  | _ => none

/-- The loop that runs a statement for the element that it asks for. A variable that the statement
declares is declared before the loop. -/
def scan (count : Nat) (access : NonUniformAccess) (statement : List Fragment) :
    Except Failure (List Piece) := do
  let some (_, r) := w.unit.resource? access.resource
    | throw
        (.unsupported w.unit.target nonUniformCall (.notResourceArray access.resource access.loc))
  let var := s!"_nu{count}"
  let index ← w.expression none access.index
  let (declaration, rest) ←
    match w.declared? statement with
    | some name => do
      let type ← w.expression none (statement.take 1)
      pure ([Piece.line s!"{type} {name};"], statement.drop 1)
    | none => pure ([], statement)
  let text ← w.expression (some var) rest
  return declaration ++
    [.line s!"for (uint {var} = 0u; {var} < {r.length}u; ++{var})", .delim .lbrace,
      .line s!"if ({var} == uint({index}))", .delim .lbrace, .line text, .delim .rbrace,
      .delim .rbrace]

/-- What has been written of a body that may need loops. -/
structure Progress where
  pieces : List Piece
  /-- The fragments of the statement under way, the last one first. -/
  statement : List Fragment
  /-- How many brackets are open. -/
  depth : Nat
  /-- How many loops have been written. -/
  loops : Nat

def Progress.start : Progress := ⟨[], [], 0, 0⟩

def endStatement (p : Progress) : Except Failure Progress := do
  let statement := p.statement.reverse
  match NonUniformAccess.first? statement with
  | some access =>
    let pieces ← w.scan p.loops access statement
    return { p with pieces := p.pieces ++ pieces, statement := [], loops := p.loops + 1 }
  | none =>
    let pieces ← w.pieces none statement
    return { p with pieces := p.pieces ++ pieces, statement := [] }

/-- Ends the header of a block, in which no index may differ between invocations. -/
def endHeader (loc : Loc) (p : Progress) (brace : Fragment) : Except Failure Progress := do
  let header := p.statement.reverse
  if (NonUniformAccess.first? header).isSome then
    throw (.unsupported w.unit.target nonUniformCall (.nonUniformHeader loc))
  let pieces ← w.pieces none (header ++ [brace])
  return { p with pieces := p.pieces ++ pieces, statement := [] }

/-- A marker between statements is written by itself. -/
def marker (p : Progress) (f : Fragment) : Except Failure Progress := do
  if p.depth ≠ 0 then return { p with statement := f :: p.statement }
  let p ← w.endStatement p
  let pieces ← w.pieces none [f]
  return { p with pieces := p.pieces ++ pieces }

def step (p : Progress) (f : Fragment) : Except Failure Progress :=
  let kept := { p with statement := f :: p.statement }
  match f with
  | .initMain _ | .ret _ _ => w.marker p f
  | .token ⟨.delim d, loc⟩ =>
    match d with
    | .lparen | .lbracket => .ok { kept with depth := p.depth + 1 }
    | .rparen | .rbracket => .ok { kept with depth := p.depth - 1 }
    | .semicolon => if p.depth = 0 then w.endStatement kept else .ok kept
    | .lbrace | .rbrace => w.endHeader loc p f
    | _ => .ok kept
  | _ => .ok kept

def statements (fs : List Fragment) : Except Failure (List Piece) :=
  match w.language.nonUniform with
  | .scan => do
    let p ← fs.foldlM (step w) .start
    let p ← w.endStatement p
    return p.pieces
  | _ => w.pieces none fs

def body (fs : List Fragment) : Except Failure (List String) :=
  (w.statements fs).map (Layout.lines 1)

end Writer
end ShaderDialect
