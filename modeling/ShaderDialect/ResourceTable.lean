import ShaderDialect.Resource

/-! Resource tables whose declarations have been given indices, and what a host reads of them. -/
namespace ShaderDialect

structure TableResource where
  name : String
  kind : ResourceKind
  /-- The first index that it takes in its set. -/
  index : Nat
  /-- How many indices it takes. -/
  length : Nat
  deriving Repr, DecidableEq, Inhabited

structure TableSet where
  frequency : Frequency
  /-- The shared set that it was included from. -/
  shared : Option String
  resources : List TableResource
  /-- How many indices its resources take. -/
  count : Nat
  deriving Repr, DecidableEq, Inhabited

structure ResourceTable where
  name : String
  sets : List TableSet
  deriving Repr, DecidableEq, Inhabited

def TableResource.toJson (r : TableResource) : Json :=
  .obj [("name", .str r.name), ("kind", r.kind.toJson), ("index", .nat r.index),
    ("array_len", .nat r.length)]

def TableSet.resource? (s : TableSet) (name : String) : Option TableResource :=
  s.resources.find? (·.name == name)

def TableSet.toJson (s : TableSet) : Json :=
  .obj ([("frequency", .str s.frequency.name)] ++
    (s.shared.map fun name => ("fragment", .str name)).toList ++
    [("resources", .arr (s.resources.map TableResource.toJson)),
      ("descriptor_count", .nat s.count)])

namespace ResourceTable

def set? (t : ResourceTable) (f : Frequency) : Option TableSet :=
  t.sets.find? (·.frequency == f)

/-- All resources, each with the frequency of its set. -/
def resources (t : ResourceTable) : List (Frequency × TableResource) :=
  t.sets.flatMap fun s => s.resources.map (s.frequency, ·)

def names (t : ResourceTable) : List String := t.resources.map (·.2.name)

def resource? (t : ResourceTable) (name : String) : Option (Frequency × TableResource) :=
  t.resources.find? (·.2.name == name)

def index? (t : ResourceTable) (f : Frequency) (name : String) : Option Nat :=
  ((t.set? f).bind (·.resource? name)).map TableResource.index

def toJson (t : ResourceTable) : Json :=
  .obj [("name", .str t.name), ("sets", .arr (t.sets.map TableSet.toJson))]

/-- The constants that a header defines for a set, by name. -/
def setConstants (t : ResourceTable) (s : TableSet) : List (String × Nat) :=
  (s!"SRT_SET_COUNT_{t.name}_{s.frequency.name}", s.count) ::
    s.resources.map fun r => (s!"SRT_RES_IDX_{t.name}_{s.frequency.name}_{r.name}", r.index)

def constants (t : ResourceTable) : List (String × Nat) := t.sets.flatMap t.setConstants

def headerLines (t : ResourceTable) : List String :=
  [s!"// Resource indices for table '{t.name}'. Generated file, do not edit.",
    "#pragma once",
    "",
    "#ifndef SRT_RES_IDX",
    "#define SRT_RES_IDX(table, set, name) SRT_RES_IDX_##table##_##set##_##name",
    "#define SRT_SET_COUNT(table, set) SRT_SET_COUNT_##table##_##set",
    "#endif"] ++
  t.sets.flatMap fun s =>
    "" :: (t.setConstants s).map fun (name, value) => s!"#define {name} {value}"

/-- A C header with one count for each set and one index for each resource. -/
def header (t : ResourceTable) : String :=
  String.join (t.headerLines.map fun line => line ++ "\n")

end ResourceTable
end ShaderDialect
