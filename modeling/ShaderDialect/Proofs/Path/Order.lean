import ShaderDialect.Proofs.FileTree.Resolution

/-! The order of paths. Their components are in a total order, and paths with the same components
lead to the same place. -/
namespace ShaderDialect

open List Std

namespace Path

def Component.text : Component → String
  | name s => s
  | root | here | up => ""

/-- Components are compared by their ranks, and names then by their texts. -/
theorem Component.compare_eq_compareLex :
    Component.compare = compareLex (compareOn Component.rank) (compareOn Component.text) := by
  funext c d
  cases c <;> cases d <;>
    simp [Component.compare, compareLex, compareOn, Component.rank, Component.text] <;> rfl

instance : TransCmp Component.compare := by
  rw [Component.compare_eq_compareLex]
  infer_instance

instance : LawfulEqCmp Component.compare where
  eq_of_compare {c d} h := by
    cases c <;> cases d <;> simp_all [Component.compare, Component.rank]

theorem compareComponents_eq_compareLex :
    compareComponents = List.compareLex Component.compare := by
  funext cs ds
  induction cs generalizing ds with
  | nil => cases ds <;> rfl
  | cons c cs ih =>
    cases ds with
    | nil => rfl
    | cons d ds => rw [compareComponents, ih, List.compareLex_cons_cons]

instance : TransCmp compareComponents := by
  rw [compareComponents_eq_compareLex]
  infer_instance

instance : TransCmp Path.compare where
  eq_swap := (inferInstance : OrientedCmp compareComponents).eq_swap
  isLE_trans := (inferInstance : TransCmp compareComponents).isLE_trans

theorem components_of_compare {p q : Path} (h : p.compare q = .eq) :
    p.components = q.components := by
  rw [compare, compareComponents_eq_compareLex] at h
  exact LawfulEqCmp.eq_of_compare h

end Path

namespace FileTree

theorem foldl_move_component? (ss : List String) (k : Key) :
    (ss.map stepOf).foldl move k = (ss.filterMap Path.component?).foldl move k := by
  induction ss generalizing k with
  | nil => rfl
  | cons s ss ih =>
    rw [map_cons, foldl_cons, ih, filterMap_cons]
    unfold stepOf Path.component?
    split <;> simp [move]

theorem segments_of_isAbsolute {p : Path} (h : p.isAbsolute = true) :
    p.segments.head? = some "" := by
  rw [Path.isAbsolute, beq_iff_eq] at h
  obtain ⟨cs, hcs⟩ := head?_eq_some_iff.1 h
  simp [Path.segments, hcs, Text.splitAt]

/-- Where a path leads to is told by its components. -/
theorem keyOf_eq_foldl (t : FileTree) (p : Path) : t.keyOf p = p.components.foldl move t.cwd := by
  rw [keyOf, Path.components]
  cases hss : p.segments with
  | nil => exact absurd hss p.segments_ne_nil
  | cons s ss =>
    rw [map_cons, foldl_cons, foldl_move_component?, foldl_append]
    congr 1
    cases ha : p.isAbsolute with
    | true =>
      have hfirst := segments_of_isAbsolute ha
      rw [hss, head?_cons, Option.some.injEq] at hfirst
      simp [start, ha, hfirst, move]
    | false =>
      have hone := foldl_move_component? [s] t.cwd
      simp only [start, ha, Bool.false_eq_true, if_false]
      split
      · next hs => simp [hs, stepOf, move]
      · cases hc : Path.component? s <;> simpa [filterMap_cons, hc] using hone

end FileTree
end ShaderDialect
