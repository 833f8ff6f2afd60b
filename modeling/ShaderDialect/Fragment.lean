import ShaderDialect.Condition
import ShaderDialect.Token

/-! Bodies of functions and globals: tokens in which calls, entry markers and conditional branches
have been given structure. -/
namespace ShaderDialect

inductive Fragment
  | token (t : Placed)
  | call (name : String) (args : List (List Fragment)) (loc : Loc)
  | branch (cond : Condition) (yes no : List Fragment) (loc : Loc)
  | initMain (loc : Loc)
  | ret (args : List (List Fragment)) (loc : Loc)
  deriving Repr, Inhabited

namespace Fragment

def token? : Fragment → Option Token
  | token t => some t.token
  | _ => none

def word? (f : Fragment) : Option String :=
  match f.token? with
  | some (.word name) => some name
  | _ => none

def isDelimiter (f : Fragment) (d : Delimiter) : Bool := f.token? == some (.delim d)

mutual
/-- A fragment and the fragments inside it, each before what it contains. -/
def nested : Fragment → List Fragment
  | token t => [token t]
  | initMain loc => [initMain loc]
  | call name args loc => call name args loc :: nestedArgs args
  | ret args loc => ret args loc :: nestedArgs args
  | branch cond yes no loc => branch cond yes no loc :: (nestedList yes ++ nestedList no)

def nestedList : List Fragment → List Fragment
  | [] => []
  | f :: fs => f.nested ++ nestedList fs

def nestedArgs : List (List Fragment) → List Fragment
  | [] => []
  | arg :: args => nestedList arg ++ nestedArgs args
end

mutual
/-- The fragments that remain when exactly the given symbols are defined. -/
def select (defined : String → Bool) : Fragment → List Fragment
  | token t => [token t]
  | initMain loc => [initMain loc]
  | call name args loc => [call name (selectArgs defined args) loc]
  | ret args loc => [ret (selectArgs defined args) loc]
  | branch cond yes no _ =>
    if cond.eval defined then selectList defined yes else selectList defined no

def selectList (defined : String → Bool) : List Fragment → List Fragment
  | [] => []
  | f :: fs => f.select defined ++ selectList defined fs

def selectArgs (defined : String → Bool) : List (List Fragment) → List (List Fragment)
  | [] => []
  | arg :: args => selectList defined arg :: selectArgs defined args
end

end Fragment
end ShaderDialect
