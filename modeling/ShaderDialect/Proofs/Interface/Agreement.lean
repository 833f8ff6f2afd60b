import ShaderDialect.Proofs.Interface.Locations

/-! What two stages make of the same struct. A stage accepts a struct or not, but what it makes of
the fields of one that it accepts depends on nothing but the fields. So a struct that one stage
writes and another one reads has the same locations in both: each field is behind the elements of
all fields before it that are not system values, unless these are more than there are locations. -/
namespace ShaderDialect
open List

namespace Field

/-- The elements of all fields that are passed at a location. -/
def locatedElements (fs : List Field) : Nat := ((fs.filter isLocated).map elements).sum

theorem locatedElements_cons (f : Field) (fs : List Field) :
    locatedElements (f :: fs) = (if f.isLocated then f.elements else 0) + locatedElements fs := by
  by_cases h : f.isLocated = true <;> simp [locatedElements, h]

/-- The elements that a location has to count: those of all located fields but the last. -/
def countedElements (fs : List Field) : Nat := (((fs.filter isLocated).dropLast).map elements).sum

theorem locatedElements_le {before after : List Field} {f : Field} (hf : f.isLocated = true) :
    locatedElements before ≤ countedElements (before ++ f :: after) := by
  rw [countedElements, filter_append, filter_cons_of_pos hf,
    dropLast_append_of_ne_nil (cons_ne_nil _ _), map_append, sum_append]
  exact Nat.le_add_right _ _

/-- The last located field has all elements before it that count. -/
theorem exists_countedElements {fs : List Field} (h : fs.filter isLocated ≠ []) :
    ∃ before f after, fs = before ++ f :: after ∧ f.isLocated = true ∧
      locatedElements before = countedElements fs := by
  obtain hnil | ⟨located, f, hlocated⟩ := eq_nil_or_concat (fs.filter isLocated)
  · exact absurd hnil h
  rw [concat_eq_append] at hlocated
  obtain ⟨before, rest, rfl, hbefore, hrest⟩ := filter_eq_append_iff.1 hlocated
  obtain ⟨skipped, after, rfl, hskipped, hf, -⟩ := filter_eq_cons_iff.1 hrest
  have hnone : skipped.filter isLocated = [] := filter_eq_nil_iff.2 hskipped
  refine ⟨before ++ skipped, f, after, by simp, hf, ?_⟩
  rw [countedElements, hlocated, dropLast_concat, locatedElements, filter_append, hbefore,
    hnone, append_nil]

end Field

namespace Interface
open Success
variable {site : Site} {output : Bool} {struct : String} {next k : Nat} {f : Field}
  {fs : List Field} {vs : List Varying}

theorem locationRange_pos : 0 < locationRange := by simp [locationRange]

theorem binding_of_isLocated (hf : f.isLocated = true) :
    (varyingOf next f).binding = .location next := by
  rw [Field.isLocated, Option.isNone_iff_eq_none] at hf
  simp [varyingOf, hf]

/-- A located field has the location that the elements of the located fields before it have left. -/
theorem getElem?_layout (hnext : next < locationRange) (hk : fs[k]? = some f)
    (hf : f.isLocated = true) : ∃ v, (layout next fs)[k]? = some v ∧
      v.binding = .location ((next + Field.locatedElements (fs.take k)) % locationRange) := by
  induction fs generalizing next k with
  | nil => cases hk
  | cons g fs ih =>
    cases k with
    | zero =>
      cases hk
      refine ⟨_, rfl, ?_⟩
      rw [binding_of_isLocated hf, take_zero, Field.locatedElements]
      simp [Nat.mod_eq_of_lt hnext]
    | succ k =>
      have hfree : freeAfter next g < locationRange := by
        rw [freeAfter]
        split
        · exact Nat.mod_lt _ locationRange_pos
        · exact hnext
      obtain ⟨v, hv, hbinding⟩ := ih hfree hk
      refine ⟨v, hv, hbinding.trans ?_⟩
      rw [take_succ_cons, Field.locatedElements_cons, freeAfter]
      split
      · rw [Nat.mod_add_mod, Nat.add_assoc]
      · rw [Nat.zero_add]

/-- Every located field is at the place that is made of the elements of the located fields before
it. -/
def Located (place : Nat → Nat) (fs : List Field) (vs : List Varying) : Prop :=
  ∀ (k : Nat) (f : Field), fs[k]? = some f → f.isLocated = true →
    ∃ v : Varying, vs[k]? = some v ∧
      v.binding = .location (place (Field.locatedElements (fs.take k)))

theorem located_layout (fs : List Field) : Located (· % locationRange) fs (layout 0 fs) := by
  intro k f hk hf
  obtain ⟨v, hv, hbinding⟩ := getElem?_layout locationRange_pos hk hf
  rw [Nat.zero_add] at hbinding
  exact ⟨v, hv, hbinding⟩

/-- No location has started again from zero exactly if the last one has not. -/
theorem located_id_iff (fs : List Field) :
    Located id fs (layout 0 fs) ↔ Field.countedElements fs < locationRange := by
  constructor
  · intro h
    by_cases hlocated : fs.filter Field.isLocated = []
    · simp [Field.countedElements, hlocated, locationRange_pos]
    · obtain ⟨before, f, after, hfs, hf, hcounted⟩ := Field.exists_countedElements hlocated
      have hk : fs[before.length]? = some f := by simp [hfs]
      have hbefore : fs.take before.length = before := by simp [hfs]
      obtain ⟨v, hv, hexact⟩ := h _ f hk hf
      obtain ⟨v', hv', hmod⟩ := located_layout fs _ f hk hf
      cases hv.symm.trans hv'
      rw [hbefore, hcounted] at hexact hmod
      have heq := VaryingBinding.location.inj (hexact.symm.trans hmod)
      rw [id] at heq
      rw [heq]
      exact Nat.mod_lt _ locationRange_pos
  · intro h k f hk hf
    obtain ⟨v, hv, hbinding⟩ := located_layout fs k f hk hf
    refine ⟨v, hv, hbinding.trans ?_⟩
    have hlt : k < fs.length := (List.getElem?_eq_some_iff.1 hk).1
    have hsplit : fs = fs.take k ++ f :: fs.drop (k + 1) := by
      rw [← (List.getElem?_eq_some_iff.1 hk).2]
      simp
    have hle : Field.locatedElements (fs.take k) ≤ Field.countedElements fs := by
      rw [hsplit]
      simpa [hlt.le] using Field.locatedElements_le hf
    exact congrArg VaryingBinding.location (Nat.mod_eq_of_lt (Nat.lt_of_le_of_lt hle h))

/-- Whatever stages accept a struct as input or output, with whatever features, they make the same
of its fields: a field that is not a system value is at the location that the elements of those
before it add up to, unless there are not so many locations. Then, and only then, they start again
from zero. -/
theorem varyings_alike (d : StructDef) :
    (∀ (site site' : Site) (output output' : Bool) (vs vs' : List Varying),
      varyings site output d.name 0 d.fields = .ok vs →
      varyings site' output' d.name 0 d.fields = .ok vs' → vs = vs') ∧
    ∀ (site : Site) (output : Bool) (vs : List Varying),
      varyings site output d.name 0 d.fields = .ok vs →
        Located (· % locationRange) d.fields vs ∧
        (Located id d.fields vs ↔ Field.countedElements d.fields < locationRange) := by
  refine ⟨fun site site' output output' vs vs' h h' => ?_, fun site output vs h => ?_⟩
  · rw [eq_layout_of_varyings h, eq_layout_of_varyings h']
  · rw [eq_layout_of_varyings h]
    exact ⟨located_layout _, located_id_iff _⟩

/-- A position, an array of colours and two values behind it. -/
def passedStruct (colours : Nat) : StructDef :=
  ⟨"Passed", [⟨.vector .float 4, "position", none, some ⟨"SV_POSITION"⟩, ⟨"p.fsl", 2⟩⟩,
    ⟨.vector .float 4, "tints", some colours, some ⟨"COLOR"⟩, ⟨"p.fsl", 3⟩⟩,
    ⟨.scalar .float, "depth", none, none, ⟨"p.fsl", 4⟩⟩,
    ⟨.scalar .float, "fade", none, none, ⟨"p.fsl", 5⟩⟩]⟩

/-- What is passed from a vertex shader to a pixel shader of another variant, and what becomes of it
when the colours leave one location only. -/
theorem varyings_alike_passedStruct :
    (∃ vs, varyings ⟨"one", .vertex, .empty⟩ true "Passed" 0 (passedStruct 2).fields = .ok vs ∧
      varyings ⟨"two", .pixel, .ofList [.multiview]⟩ false "Passed" 0 (passedStruct 2).fields =
        .ok vs ∧ Located id (passedStruct 2).fields vs) ∧
    ∃ vs, varyings ⟨"one", .vertex, .empty⟩ true "Passed" 0 (passedStruct (2 ^ 32 - 1)).fields =
      .ok vs ∧ vs.map Varying.binding =
        [.system .position, .location 0, .location (2 ^ 32 - 1), .location 0] ∧
      ¬ Located id (passedStruct (2 ^ 32 - 1)).fields vs := by
  constructor
  · obtain ⟨vs, hvs⟩ : ∃ vs, varyings ⟨"one", .vertex, .empty⟩ true "Passed" 0
      (passedStruct 2).fields = .ok vs := ⟨_, rfl⟩
    obtain ⟨vs', hvs'⟩ : ∃ vs, varyings ⟨"two", .pixel, .ofList [.multiview]⟩ false "Passed" 0
      (passedStruct 2).fields = .ok vs := ⟨_, rfl⟩
    obtain rfl := (varyings_alike (passedStruct 2)).1 _ _ _ _ _ _ hvs hvs'
    exact ⟨vs, hvs, hvs', ((varyings_alike (passedStruct 2)).2 _ _ _ hvs).2.2 (by decide)⟩
  · obtain ⟨vs, hvs, hbindings⟩ : ∃ vs, varyings ⟨"one", .vertex, .empty⟩ true "Passed" 0
      (passedStruct (2 ^ 32 - 1)).fields = .ok vs ∧ vs.map Varying.binding =
        [.system .position, .location 0, .location (2 ^ 32 - 1), .location 0] := ⟨_, rfl, by decide⟩
    refine ⟨vs, hvs, hbindings, fun hlocated => ?_⟩
    have hlt := ((varyings_alike (passedStruct (2 ^ 32 - 1))).2 _ _ _ hvs).2.1 hlocated
    exact absurd hlt (by decide)

end Interface
end ShaderDialect
