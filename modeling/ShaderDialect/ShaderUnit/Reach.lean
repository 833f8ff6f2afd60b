import ShaderDialect.Failure
import ShaderDialect.Program
import ShaderDialect.ResourceTable
import ShaderDialect.Text.Order

/-! Which helpers a function reaches through calls, and which names its body reads as values. -/
namespace ShaderDialect

namespace Fragment

def callName? : Fragment → Option String
  | call name _ _ => some name
  | _ => none

mutual
/-- The words that name values, with their places. A word after a dot names a member. -/
def values (afterDot : Bool) : Fragment → List (String × Loc)
  | token t =>
    match t.token with
    | .word name => if afterDot then [] else [(name, t.loc)]
    | _ => []
  | call _ args _ => valuesArgs args
  | ret args _ => valuesArgs args
  | branch _ yes no _ => valuesList false yes ++ valuesList false no
  | initMain _ => []

def valuesList (afterDot : Bool) : List Fragment → List (String × Loc)
  | [] => []
  | f :: fs => f.values afterDot ++ valuesList (f.isDelimiter .dot) fs

def valuesArgs : List (List Fragment) → List (String × Loc)
  | [] => []
  | arg :: args => valuesList false arg ++ valuesArgs args
end

end Fragment

namespace Function

def calls (f : Function) : List String := (Fragment.nestedList f.body).filterMap Fragment.callName?

/-- The functions of a list that the body calls, each once, in the order of their first calls. -/
def callees (fs : List Function) (f : Function) : List Function :=
  (Text.distinct f.calls).filterMap fun name => fs.find? (·.name == name)

/-- The words that name values in the body. -/
def values (f : Function) : List (String × Loc) := Fragment.valuesList false f.body

end Function

/-- Adds the functions that `f` reaches to those already found, callees before their callers. The
functions under way are the ones that cannot be called again. The fuel bounds how many there are. -/
def Helpers.visit (scope : String) (fs : List Function) :
    (fuel : Nat) → (underWay : List String) → (f : Function) → (found : List Function) →
      Except Failure (List Function)
  | 0, _, _, found => .ok found
  | fuel + 1, underWay, f, found =>
    (f.callees fs).foldlM (fun found callee =>
      if callee.name = f.name ∨ callee.name ∈ underWay then
        .error (.program scope (.recursion f.name callee.name))
      else if found.any (·.name == callee.name) then .ok found
      else do
        let found ← visit scope fs fuel (f.name :: underWay) callee found
        return found ++ [callee]) found

def Helpers.reached (scope : String) (fs : List Function) (entry : Function) :
    Except Failure (List Function) :=
  visit scope fs (fs.length + 1) [] entry []

namespace Function

/-- What is wrong with the first resource of another table that the body names. Where several other
tables have it, the last of them counts. -/
def foreignFault? (own : Option ResourceTable) (others : List ResourceTable) (f : Function) :
    Option ProgramFault :=
  f.values.findSome? fun (name, loc) =>
    if own.any (name ∈ ·.names) then none
    else
      (others.reverse.find? (name ∈ ·.names)).map fun other =>
        match own with
        | some t => .foreignResource name loc other.name t.name
        | none => .unselectedResource name loc other.name

/-- The resources of a table that the body names or that the functions it calls use, in the order
of the table. -/
def usedResources (own : Option ResourceTable) (used : List (String × List String)) (f : Function) :
    List String :=
  let named := f.values.map (·.1) ++ f.calls.flatMap fun callee => (used.lookup callee).getD []
  (own.map ResourceTable.names).getD [] |>.filter named.contains

end Function
end ShaderDialect
