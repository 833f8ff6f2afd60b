import ShaderDialect.Failure
import ShaderDialect.ResourceTable
import ShaderDialect.ResourceTable.Signature
import ShaderDialect.Text.Order

/-! Resolving the tables of a program: every set numbers its declarations from zero, and a table's
sets, samplers and names have to be where the rules allow them. -/
namespace ShaderDialect

/-- The shared sets and tables of a program, each name once. -/
structure Declared where
  sharedSets : List SharedSet
  tables : List TableDecl
  deriving Repr

/-- A name can be declared again with the same signature only. -/
def Declared.add (d : Declared) : Item → Except Failure Declared
  | .sharedSet s =>
    match d.sharedSets.find? (·.name == s.name) with
    | none => .ok { d with sharedSets := d.sharedSets ++ [s] }
    | some first =>
      if first.set.signature = s.set.signature then .ok d
      else .error (.program s.name .sharedSetDiffers)
  | .table t =>
    match d.tables.find? (·.name == t.name) with
    | none => .ok { d with tables := d.tables ++ [t] }
    | some first =>
      if first.signature = t.signature then .ok d else .error (.program t.name .tableDiffers)
  | _ => .ok d

/-- The tables and shared sets that are declared anywhere in a program. -/
def Program.declared (p : Program) : Except Failure Declared :=
  p.allItems.foldlM Declared.add ⟨[], []⟩

namespace SetBlock

def indexRange : Nat := 1 <<< 32

/-- Declarations take the indices from `next` on, in their order. -/
def place (scope : String) (frequency : Frequency) :
    (next : Nat) → List ResourceDecl → Except Failure (List TableResource × Nat)
  | next, [] => .ok ([], next)
  | next, d :: ds =>
    if d.frequency ≠ frequency then
      .error (.program scope (.frequencyMismatch d.name d.loc d.frequency frequency))
    else if indexRange ≤ next + d.length then
      .error (.program scope (.indexOverflow d.name d.loc frequency))
    else
      match place scope frequency (next + d.length) ds with
      | .ok (rest, count) =>
        .ok ({ name := d.name, kind := d.kind, index := next, length := d.length } :: rest, count)
      | .error e => .error e

def resolve (scope : String) (shared : Option String) (s : SetBlock) : Except Failure TableSet :=
  match place scope s.frequency 0 s.decls with
  | .ok (resources, count) => .ok { frequency := s.frequency, shared, resources, count }
  | .error e => .error e

end SetBlock

/-- Resolving keeps the shared sets that have been resolved, by name, also when it fails. -/
abbrev Resolving (α : Type) := ExceptT Failure (StateM (List (String × TableSet))) α

/-- A shared set is resolved where it is first included, and its indices are the same in every
table. -/
def SharedSet.resolveOnce (s : SharedSet) : Resolving TableSet := do
  match (← get).lookup s.name with
  | some set => return set
  | none =>
    let set ← ExceptT.mk (pure (s.set.resolve s.name (some s.name)))
    modify ((s.name, set) :: ·)
    return set

namespace TableDecl

def resolveSetOnce (sharedSets : List SharedSet) (table : String) : SetSource → Resolving TableSet
  | .own set => ExceptT.mk (pure (set.resolve table none))
  | .shared name loc =>
    match sharedSets.find? (·.name == name) with
    | none => throw (.program table (.unknownSharedSet name loc))
    | some s => s.resolveOnce

/-- Sets stand in the order of their frequencies, each once. -/
def orderFault? : List TableSet → Option ProgramFault
  | a :: b :: rest =>
    if b.frequency.index ≤ a.frequency.index then some (.setOrder b.frequency a.frequency)
    else orderFault? (b :: rest)
  | _ => none

/-- Samplers stand in the first set only. -/
def samplerFault? : List TableSet → Option ProgramFault
  | [] => none
  | first :: rest => rest.findSome? fun s =>
    (s.resources.find? (·.kind.isSampler)).map fun r =>
      .misplacedSampler r.name s.frequency first.frequency

/-- Names are declared once in all sets together. -/
def repeatedName? (seen : List String) : List String → Option String
  | [] => none
  | n :: ns => if n ∈ seen then some n else repeatedName? (n :: seen) ns

def faultOf? (sets : List TableSet) : Option ProgramFault :=
  orderFault? sets <|> samplerFault? sets <|>
    (repeatedName? [] (sets.flatMap fun s => s.resources.map TableResource.name)).map
      .duplicateResource

def ofSets (d : TableDecl) (sets : List TableSet) : Except Failure ResourceTable :=
  match faultOf? sets with
  | some fault => .error (.program d.name fault)
  | none => .ok { name := d.name, sets }

def resolveOnce (sharedSets : List SharedSet) (d : TableDecl) : Resolving ResourceTable := do
  let sets ← d.sets.mapM (resolveSetOnce sharedSets d.name)
  ExceptT.mk (pure (d.ofSets sets))

end TableDecl

/-- The tables of a program by name, in the order of their declarations. A table that cannot be
resolved does not keep others from being used. -/
structure ResourceTables where
  entries : List (String × Except Failure ResourceTable)

namespace ResourceTables

/-- Resolves the tables one after the other, each with the shared sets that those before it have
resolved. -/
def resolveAll (d : Declared) : ResourceTables :=
  let resolving := d.tables.mapM fun t => return (t.name, ← (t.resolveOnce d.sharedSets).run)
  ⟨(resolving.run []).1⟩

/-- A table that is there. -/
def get? (ts : ResourceTables) (name : String) : Option ResourceTable :=
  match ts.entries.lookup name with
  | some (.ok t) => some t
  | _ => none

/-- A table that has to be there. -/
def get (ts : ResourceTables) (name : String) : Except Failure ResourceTable :=
  match ts.entries.lookup name with
  | some (.ok t) => .ok t
  | some (.error _) => .error (.program name .tableFailed)
  | none => .error (.program name .unknownTable)

/-- The tables that could be resolved, in the order of their names. -/
def tables (ts : ResourceTables) : List ResourceTable :=
  (Text.sortNames (ts.entries.map (·.1))).filterMap ts.get?

/-- The names of the tables that could not be resolved, in order. -/
def failed (ts : ResourceTables) : List String :=
  Text.sortNames (ts.entries.filterMap fun (name, r) =>
    match r with
    | .ok _ => none
    | .error _ => some name)

/-- Why tables could not be resolved, in the order of their declarations. -/
def faults (ts : ResourceTables) : List Failure :=
  ts.entries.filterMap fun (_, r) =>
    match r with
    | .ok _ => none
    | .error e => some e

end ResourceTables

def Program.resolveTables (p : Program) : Except Failure ResourceTables :=
  p.declared.map ResourceTables.resolveAll

end ShaderDialect
