import ShaderDialect.Emit.Language

/-! Expressions in a target's language. -/
namespace ShaderDialect

/-- Whose body is written, and in which language. -/
structure Writer where
  language : Language
  unit : ShaderUnit
  role : Role

namespace Writer
variable (w : Writer)

/-- A word that does not follow a dot. -/
def word (name : String) : String :=
  match w.unit.resource? name with
  | some (frequency, r) => w.language.resourceName w.role frequency r
  | none =>
    match ValueType.builtin? name with
    | some type => w.language.typeName type
    | none => w.language.respell name

def token (afterDot : Bool) : Token → Piece
  | .word name => .word (if afterDot then name else w.word name)
  | .float text => .word (w.language.floatLiteral text)
  | .op symbol => .op symbol
  | .delim d => .delim d
  | t => .word t.text

/-- The text of an intrinsic. Where targets differ on whether a matrix is made of rows or of
columns, it is transposed. -/
def intrinsic (c : CallSite) : Except Failure String :=
  let l := w.language
  match c.intrinsic, c.args with
  | .respelled s, args => .ok ((s.ofTarget w.unit.target).apply args)
  | .otherWave, _ =>
    if w.unit.target = .direct3d12 then .ok c.plain
    else c.unsupported (.noEquivalent w.unit.target)
  | .nonUniformIndex, [i] => .ok (l.nonUniformIndex i)
  | .makeMatrix size columns, args =>
    let made := callText (l.typeName (.matrix .float size size)) args
    .ok (if columns = l.columnsFirst then made else s!"transpose({made})")
  | .getCol, [m, i] => .ok (if l.columnsFirst then s!"{m}[{i}]" else s!"transpose({m})[{i}]")
  | .getRow, [m, i] => .ok (if l.columnsFirst then s!"transpose({m})[{i}]" else s!"{m}[{i}]")
  | .getElem, [m, i, j] => .ok (if l.columnsFirst then s!"{m}[{i}][{j}]" else s!"{m}[{j}][{i}]")
  | .mul, [a, b] => .ok (if w.unit.target = .direct3d12 then s!"mul({a}, {b})" else s!"({a} * {b})")
  | _, _ => l.access c

/-- A call whose arguments have been written. Helpers hide intrinsics, and those hide types. -/
def call (name : String) (source : List (List Fragment)) (args : List String) (loc : Loc) :
    Except Failure String :=
  match w.unit.helper? name with
  | some h => .ok (callText name (args ++ w.language.helperArgs w.unit w.role h))
  | none =>
    match Intrinsic.ofName? name with
    | some i =>
      if i.accepts args.length then
        w.intrinsic { unit := w.unit, name, intrinsic := i, args, source, loc }
      else .error (.program w.unit.name (.argumentCount name loc i.arity args.length))
    | none =>
      match ValueType.builtin? name with
      | some type => .ok (callText (w.language.typeName type) args)
      | none => .ok (callText name args)

/-- The marker of an index that differs between invocations. -/
def nonUniformCall : String := "NonUniformResourceIndex"

mutual
/-- The pieces of a fragment. Inside a loop over an array, the loop's index stands for every index
that differs between invocations. -/
def fragment (loopIndex : Option String) (afterDot : Bool) :
    Fragment → Except Failure (List Piece)
  | .token t => .ok [w.token afterDot t.token]
  | .call name args loc =>
    match loopIndex, name == nonUniformCall with
    | some index, true => .ok [.word index]
    | _, _ => do
      let texts ← arguments loopIndex args
      return [.word (← w.call name args texts loc)]
  | .initMain _ => .ok (w.language.initMain w.unit)
  | .ret [] _ => .ok (w.language.returns w.unit none)
  | .ret (value :: _) _ => do
    let pieces ← fragments loopIndex false value
    return w.language.returns w.unit (some (Piece.inline pieces))
  | .branch _ _ _ loc => .error (.program w.unit.name (.unresolvedConditional loc))

def fragments (loopIndex : Option String) (afterDot : Bool) :
    List Fragment → Except Failure (List Piece)
  | [] => .ok []
  | f :: fs => do
    let head ← fragment loopIndex afterDot f
    let tail ← fragments loopIndex (f.isDelimiter .dot) fs
    return head ++ tail

def arguments (loopIndex : Option String) : List (List Fragment) → Except Failure (List String)
  | [] => .ok []
  | arg :: args => do
    let head ← fragments loopIndex false arg
    let tail ← arguments loopIndex args
    return Piece.inline head :: tail
end

def pieces (loopIndex : Option String) (fs : List Fragment) : Except Failure (List Piece) :=
  w.fragments loopIndex false fs

def expression (loopIndex : Option String) (fs : List Fragment) : Except Failure String :=
  (w.pieces loopIndex fs).map Piece.inline

end Writer
end ShaderDialect
