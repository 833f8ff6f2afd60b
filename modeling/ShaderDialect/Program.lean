import ShaderDialect.Feature
import ShaderDialect.Fragment
import ShaderDialect.Resource
import ShaderDialect.Stage

/-! The declarations of a source. -/
namespace ShaderDialect

structure Field where
  type : ValueType
  name : String
  length : Option Nat
  semantic : Option Semantic
  loc : Loc
  deriving Repr, DecidableEq

inductive StructMember
  | field (f : Field)
  | branch (cond : Condition) (yes no : List StructMember)
  deriving Repr

structure StructDecl where
  name : String
  members : List StructMember
  loc : Loc
  deriving Repr

structure ResourceDecl where
  name : String
  kind : ResourceKind
  /-- 1 for a single resource. -/
  length : Nat
  /-- The frequency that the declaration itself names. -/
  frequency : Frequency
  loc : Loc
  deriving Repr, DecidableEq

structure SetBlock where
  frequency : Frequency
  decls : List ResourceDecl
  loc : Loc
  deriving Repr, DecidableEq

/-- A set that tables include by its name. -/
structure SharedSet where
  name : String
  set : SetBlock
  deriving Repr, DecidableEq

inductive SetSource
  | own (set : SetBlock)
  | shared (name : String) (loc : Loc)
  deriving Repr, DecidableEq

structure TableDecl where
  name : String
  sets : List SetSource
  loc : Loc
  deriving Repr, DecidableEq

inductive Modifier
  | in_ | out | inout
  deriving Repr, DecidableEq

structure Param where
  type : ValueType
  name : String
  length : Option Nat
  modifier : Modifier
  systemValue : Option SystemValue
  loc : Loc
  deriving Repr, DecidableEq

structure Function where
  name : String
  returns : ValueType
  params : List Param
  body : List Fragment
  loc : Loc
  deriving Repr

structure Threads where
  x : Nat
  y : Nat
  z : Nat
  deriving Repr, DecidableEq

structure EntryPoint where
  stage : Stage
  function : Function
  rootSignature : Option String
  table : Option String
  threads : Option Threads
  deriving Repr

structure Global where
  body : List Fragment
  loc : Loc
  deriving Repr

inductive Item
  | struct (d : StructDecl)
  | table (d : TableDecl)
  | sharedSet (d : SharedSet)
  | function (f : Function)
  | entry (e : EntryPoint)
  | global (g : Global)
  | branch (cond : Condition) (yes no : List Item) (loc : Loc)
  | block (stage : Stage) (features : FeatureSet) (name : String) (items : List Item) (loc : Loc)
  deriving Repr

structure Program where
  items : List Item
  deriving Repr

mutual
/-- The fields that remain when exactly the given symbols are defined. -/
def StructMember.select (defined : String → Bool) : StructMember → List Field
  | .field f => [f]
  | .branch cond yes no =>
    if cond.eval defined then selectMembers defined yes else selectMembers defined no

def selectMembers (defined : String → Bool) : List StructMember → List Field
  | [] => []
  | m :: ms => m.select defined ++ selectMembers defined ms
end

def Function.select (defined : String → Bool) (f : Function) : Function :=
  { f with body := Fragment.selectList defined f.body }

namespace Item

mutual
/-- An item and the items inside it, in all branches and blocks. -/
def nested : Item → List Item
  | branch cond yes no loc => branch cond yes no loc :: (nestedList yes ++ nestedList no)
  | block stage features name items loc =>
    block stage features name items loc :: nestedList items
  | struct d => [struct d]
  | table d => [table d]
  | sharedSet d => [sharedSet d]
  | function f => [function f]
  | entry e => [entry e]
  | global g => [global g]

def nestedList : List Item → List Item
  | [] => []
  | i :: is => i.nested ++ nestedList is
end

mutual
/-- The items that remain when exactly the given symbols are defined; blocks are not entered. -/
def select (defined : String → Bool) : Item → List Item
  | branch cond yes no _ =>
    if cond.eval defined then selectList defined yes else selectList defined no
  | i => [i]

def selectList (defined : String → Bool) : List Item → List Item
  | [] => []
  | i :: is => i.select defined ++ selectList defined is
end

def isBlock : Item → Bool
  | block .. => true
  | _ => false

end Item

/-- All items, in all branches and blocks. -/
def Program.allItems (p : Program) : List Item := Item.nestedList p.items

end ShaderDialect
