import ShaderDialect.Failure
import ShaderDialect.FileTree

/-! A source with its includes spliced in. Each file is spliced once in a shader block and once
outside of all blocks, and a file that is still being spliced cannot be included again. -/
namespace ShaderDialect

structure Source where
  name : String
  tokens : List Placed
  /-- Canonical paths of the files that were read, in the order of their first reading. -/
  dependencies : List Path
  deriving Repr

namespace Source

structure Splice where
  tokens : Array Placed
  dependencies : List Path
  /-- Files that are not spliced again in the present scope. -/
  seen : List Path
  /-- Files that are being spliced, innermost first. -/
  openFiles : List Path
  /-- `seen` at the start of the open shader block. -/
  outside : Option (List Path)

/-- The file that an include directive names between quotes or angle brackets. -/
def includeOperand? (operand : String) : Option String :=
  match operand.toList with
  | '"' :: cs => if cs.getLast? = some '"' then some (String.ofList cs.dropLast) else none
  | '<' :: cs => if cs.getLast? = some '>' then some (String.ofList cs.dropLast) else none
  | _ => none

/-- The first existing file among the candidates in the directory of the including file and in the
include directories. -/
def findInclude? (tree : FileTree) (dirs : List Path) (file : String) : Option Path :=
  (dirs.map (·.joinName file)).find? tree.isFile

section
variable (tree : FileTree) (includePaths : List Path)
  (nested : String → String → Option Path → Splice → Except Failure Splice)

/-- Splices an included file, unless the present scope has it already. -/
def includeFile (dir : Option Path) (loc : Loc) (operand : String) (s : Splice) :
    Except Failure Splice := do
  let some file := includeOperand? operand | throw (.source loc (.malformedInclude operand))
  let some found := findInclude? tree (dir.toList ++ includePaths) file
    | throw (.source loc (.missingInclude file))
  match tree.canonical found with
  | .error e => throw (.pathIo found e)
  | .ok canonical =>
    if canonical ∈ s.openFiles then throw (.source loc (.includeCycle file))
    if canonical ∈ s.seen then return s
    match tree.readText canonical with
    | .error e => throw (.pathIo found e)
    | .ok text =>
      let s' ← nested found.text text canonical.parent?
        { s with
          seen := canonical :: s.seen
          dependencies :=
            if canonical ∈ s.dependencies then s.dependencies else s.dependencies ++ [canonical]
          openFiles := canonical :: s.openFiles }
      return { s' with openFiles := s.openFiles }

/-- Splices one lexeme of a file. A shader block has its own includes, which end with it. -/
def spliceLexeme (name : String) (dir : Option Path) (s : Splice) (l : Lexeme) :
    Except Failure Splice :=
  let loc : Loc := ⟨name, l.line⟩
  let keep (s : Splice) : Splice := { s with tokens := s.tokens.push ⟨l.token, loc⟩ }
  match l.token with
  | .directive "include" operand => includeFile tree includePaths nested dir loc operand s
  | .directive "define" _ => .error (.source loc (.unsupportedDirective "define"))
  | .directive "undef" _ => .error (.source loc (.unsupportedDirective "undef"))
  | .directive "pragma" _ => .ok s
  | .directive "vert" _ | .directive "frag" _ | .directive "comp" _ =>
    .ok (keep { s with outside := some s.seen })
  | .directive "end" _ =>
    match s.outside with
    | some seen => .ok (keep { s with seen, outside := none })
    | none => .ok (keep s)
  | _ => .ok (keep s)

end

/-- Splices the text of a file. The fuel bounds how deep includes are nested. -/
def spliceText (tree : FileTree) (includePaths : List Path) :
    (fuel : Nat) → (name text : String) → (dir : Option Path) → Splice → Except Failure Splice
  | 0, name, _, _, _ => .error (.source ⟨name, 1⟩ (.includeCycle name))
  | fuel + 1, name, text, dir, s =>
    match tokenize text with
    | .error e => .error (.source ⟨name, e.line⟩ (.scan e.fault))
    | .ok ls =>
      ls.foldlM (spliceLexeme tree includePaths (spliceText tree includePaths fuel) name dir) s

/-- Open files are different files of the tree, so includes are not nested deeper than this. -/
def depth (tree : FileTree) : Nat := tree.nodes.length + 2

/-- A source that is not in a file. Includes are looked up in `base` first. -/
def ofText (tree : FileTree) (includePaths : List Path) (name text : String) (base : Option Path) :
    Except Failure Source := do
  let s ← spliceText tree includePaths (depth tree) name text base
    { tokens := #[], dependencies := [], seen := [], openFiles := [], outside := none }
  return { name, tokens := s.tokens.toList, dependencies := s.dependencies }

/-- The source of a file, named by its path as given. -/
def load (tree : FileTree) (includePaths : List Path) (path : Path) : Except Failure Source := do
  match tree.canonical path with
  | .error e => throw (.pathIo path e)
  | .ok canonical =>
    match tree.readText canonical with
    | .error e => throw (.pathIo path e)
    | .ok text =>
      let s ← spliceText tree includePaths (depth tree) path.text text canonical.parent?
        { tokens := #[], dependencies := [canonical], seen := [canonical],
          openFiles := [canonical], outside := none }
      return { name := path.text, tokens := s.tokens.toList, dependencies := s.dependencies }

end Source
end ShaderDialect
