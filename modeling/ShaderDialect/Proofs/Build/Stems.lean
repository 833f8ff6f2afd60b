import ShaderDialect.Proofs.Build.Places
import ShaderDialect.Proofs.Path.Folders

/-! Names of variants. The features of a variant are told by the label that is added to its name,
but a name without features may look as if it had a label. -/
namespace ShaderDialect
open List
namespace FeatureSet
variable {s s' : FeatureSet}

theorem mem_toList {f : Feature} : f ∈ s.toList ↔ s.contains f := by
  have hall : f ∈ Feature.all := by cases f <;> decide
  simp [toList, hall]

theorem eq_of_toList (h : s.toList = s'.toList) : s = s' := by
  have hcontains : ∀ f, s.contains f = s'.contains f := by
    intro f
    rw [Bool.eq_iff_iff, ← mem_toList, ← mem_toList, h]
  have hbits : s.bits = s'.bits := by
    refine BitVec.eq_of_getLsbD_eq fun i hi => ?_
    have hfeature : ∀ i < 6, ∃ f ∈ Feature.all, f.bit = i := by decide
    obtain ⟨f, -, rfl⟩ := hfeature i hi
    exact hcontains f
  cases s
  cases s'
  exact congrArg mk hbits

theorem toList_eq_nil : s.toList = [] ↔ s.isEmpty := by
  have hempty : empty.toList = [] := by decide
  constructor
  · intro h
    rw [eq_of_toList (h.trans hempty.symm)]
    rfl
  · intro h
    have hs : s = empty := by
      cases s
      exact congrArg mk (beq_iff_eq.1 h)
    rw [hs, hempty]

theorem eq_of_isEmpty (h : s.isEmpty) (h' : s'.isEmpty) : s = s' :=
  eq_of_toList ((toList_eq_nil.2 h).trans (toList_eq_nil.2 h').symm)

theorem dot_not_mem_label (s : FeatureSet) : '.' ∉ s.label.toList :=
  s.not_mem_label (by decide) fun f => by cases f <;> decide

theorem splitOn_label (hs : ¬ s.isEmpty) :
    s.label.toList.splitOn '+' = s.symbols.map String.toList := by
  rw [label, String.toList_intercalate]
  refine splitOn_intercalate '+' ?_ ?_
  · intro cs hcs
    simp only [symbols, map_map, mem_map, Function.comp_apply] at hcs
    obtain ⟨f, -, rfl⟩ := hcs
    cases f <;> decide
  · simpa [symbols, toList_eq_nil] using hs

theorem eq_of_label (hs : ¬ s.isEmpty) (hs' : ¬ s'.isEmpty) (h : s.label = s'.label) : s = s' := by
  have hsymbols : s.symbols = s'.symbols := by
    refine (map_injective_iff.2 fun _ _ => String.toList_inj.1) ?_
    rw [← splitOn_label hs, h, splitOn_label hs']
  refine eq_of_toList ((map_injective_iff.2 ?_) hsymbols)
  intro f g
  cases f <;> cases g <;> decide

/-- What the features add to the name of a variant. -/
def mark (s : FeatureSet) : String := if s.isEmpty then "" else "." ++ s.label

theorem mark_of_isEmpty (h : s.isEmpty) : s.mark = "" := if_pos h

theorem mark_of_not_isEmpty (h : ¬ s.isEmpty) : s.mark = "." ++ s.label := if_neg h

theorem slash_not_mem_mark (s : FeatureSet) : '/' ∉ s.mark.toList := by
  by_cases h : s.isEmpty
  · simp [mark_of_isEmpty h]
  · simpa [mark_of_not_isEmpty h] using s.slash_not_mem_label

/-- What stands behind the last dot of a marked name is the label. -/
theorem rtakeWhile_append_mark (x : String) (hs : ¬ s.isEmpty) :
    (x ++ s.mark).toList.rtakeWhile (· != '.') = s.label.toList := by
  have hpos : ∀ c ∈ s.label.toList, (c != '.') = true := by
    intro c hc
    simpa using ne_of_mem_of_not_mem hc s.dot_not_mem_label
  have hchars : (x ++ s.mark).toList = x.toList ++ ['.'] ++ s.label.toList := by
    simp [mark_of_not_isEmpty hs]
  rw [hchars, (Path.rdropWhile_append_of_pos hpos).2, rtakeWhile_concat_neg _ _ _ (by simp),
    nil_append]

/-- Two marked names are equal if both parts are, or if the whole of one is a name without
features. -/
theorem append_mark_eq_iff {x x' : String} : x ++ s.mark = x' ++ s'.mark ↔
    x = x' ∧ s = s' ∨ s.isEmpty ∧ ¬ s'.isEmpty ∧ x = x' ++ s'.mark ∨
      ¬ s.isEmpty ∧ s'.isEmpty ∧ x' = x ++ s.mark := by
  by_cases hs : s.isEmpty = true <;> by_cases hs' : s'.isEmpty = true
  · simp [hs', mark_of_isEmpty, eq_of_isEmpty hs hs']
  · have hne : s ≠ s' := fun he => hs' (he ▸ hs)
    simp [hs, hs', mark_of_isEmpty hs, hne]
  · have hne : s ≠ s' := fun he => hs (he ▸ hs')
    simp [hs, hs', mark_of_isEmpty hs', hne, eq_comm]
  · constructor
    · intro h
      have hlabel : s.label = s'.label := by
        rw [← String.toList_inj, ← rtakeWhile_append_mark x hs, h, rtakeWhile_append_mark x' hs']
      obtain rfl := eq_of_label hs hs' hlabel
      exact .inl ⟨(String.append_left_inj _).1 h, rfl⟩
    · rintro (⟨rfl, rfl⟩ | ⟨h, -⟩ | ⟨-, h, -⟩)
      · rfl
      · exact absurd h hs
      · exact absurd h hs'

end FeatureSet

namespace Output
variable {o o' : Output}

def stem (o : Output) : String := Builder.variantStem o.name o.features

theorem stem_eq (o : Output) : o.stem = o.name ++ o.features.mark := by
  unfold stem Builder.variantStem FeatureSet.mark
  split
  · simp
  · exact String.append_assoc

theorem folder_stem (o : Output) : Path.folder o.stem = Path.folder o.name := by
  rw [stem_eq, Path.folder_append o.features.slash_not_mem_mark]

theorem base_stem (o : Output) : Path.base o.stem = Path.base o.name ++ o.features.mark := by
  rw [stem_eq, Path.base_append o.features.slash_not_mem_mark]

/-- An output without features is named like a variant of another. -/
def NamedLike (o o' : Output) : Prop :=
  o.features.isEmpty ∧ ¬ o'.features.isEmpty ∧
    Path.base o.name = Path.base o'.name ++ "." ++ o'.features.label

theorem base_stem_eq_iff : Path.base o.stem = Path.base o'.stem ↔
    Path.base o.name = Path.base o'.name ∧ o.features = o'.features ∨ o.NamedLike o' ∨
      o'.NamedLike o := by
  have hmark : ∀ {x : String} {s : FeatureSet}, ¬ s.isEmpty →
      x ++ s.mark = x ++ "." ++ s.label := by
    intro x s hs
    rw [FeatureSet.mark_of_not_isEmpty hs, String.append_assoc]
  rw [base_stem, base_stem, FeatureSet.append_mark_eq_iff]
  refine or_congr_right (or_congr ?_ ?_)
  · refine and_congr_right fun _ => and_congr_right fun h => ?_
    rw [hmark h]
  · rw [NamedLike, and_left_comm]
    refine and_congr_right fun _ => and_congr_right fun h => ?_
    rw [hmark h]

end Output
end ShaderDialect
