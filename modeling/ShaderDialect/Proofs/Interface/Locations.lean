import Mathlib.Order.Interval.Finset.Nat
import ShaderDialect.Proofs.Interface.Fields
import ShaderDialect.Proofs.Program.Structs

/-! Locations of stage inputs and outputs. A varying takes as many locations as it has elements,
times the columns of a matrix, but the varying after it starts where the elements alone would end.
So the locations are apart exactly if no varying but the last is a matrix, and if they do not run
out. -/
namespace ShaderDialect

namespace Varying
variable {v : Varying} {value : SystemValue} {n : Nat} {vs : List Varying}

def elements (v : Varying) : Nat := v.length.getD 1

/-- Whether the varying is passed at a location, not as a system value. -/
def isLocated (v : Varying) : Bool :=
  match v.binding with
  | .location _ => true
  | .system _ => false

def locations (v : Varying) : Finset Nat :=
  match v.binding with
  | .location n => Finset.Ico n (n + v.elements * v.type.columns)
  | .system _ => ∅

/-- No two varyings share a location. -/
def Apart (vs : List Varying) : Prop := vs.Pairwise fun v w => Disjoint v.locations w.locations

instance (vs : List Varying) : Decidable (Apart vs) := List.instDecidablePairwise _

/-- All located varyings but the last. -/
def followed (vs : List Varying) : List Varying := (vs.filter isLocated).dropLast

theorem locations_of_system (h : v.binding = .system value) :
    v.locations = ∅ := by simp [locations, h]

theorem locations_of_location (h : v.binding = .location n) :
    v.locations = Finset.Ico n (n + v.elements * v.type.columns) := by simp [locations, h]

theorem followed_cons_system (h : v.binding = .system value) :
    followed (v :: vs) = followed vs := by
  simp [followed, isLocated, h]

theorem followed_cons_location (h : v.binding = .location n) (hvs : vs.filter isLocated ≠ []) :
    followed (v :: vs) = v :: followed vs := by
  have hv : v.isLocated = true := by simp [isLocated, h]
  rw [followed, List.filter_cons_of_pos hv, List.dropLast_cons_of_ne_nil hvs, followed]

/-- Varyings that are apart from all locations below a bound and from each other. -/
def ClearFrom (n : Nat) (vs : List Varying) : Prop :=
  (∀ v ∈ vs, Disjoint (Finset.range n) v.locations) ∧ Apart vs

theorem clearFrom_zero : ClearFrom 0 vs ↔ Apart vs := by
  simp [ClearFrom]

theorem clearFrom_cons_system (h : v.binding = .system value) :
    ClearFrom n (v :: vs) ↔ ClearFrom n vs := by
  simp [ClearFrom, Apart, locations_of_system h]

/-- A varying takes the locations from the bound on, so the bound rises. -/
theorem clearFrom_cons_location (h : v.binding = .location n) :
    ClearFrom n (v :: vs) ↔ ClearFrom (n + v.elements * v.type.columns) vs := by
  have hlow : Disjoint (Finset.range n) v.locations := by
    rw [locations_of_location h, Finset.range_eq_Ico]
    exact Finset.Ico_disjoint_Ico_consecutive _ _ _
  have hunion : Finset.range n ∪ v.locations =
      Finset.range (n + v.elements * v.type.columns) := by
    rw [locations_of_location h, Finset.range_eq_Ico, Finset.range_eq_Ico]
    exact Finset.Ico_union_Ico_eq_Ico (Nat.zero_le n) (Nat.le_add_right _ _)
  simp only [ClearFrom, Apart, List.forall_mem_cons, List.pairwise_cons, hlow, true_and, ← hunion,
    Finset.disjoint_union_left, forall_and]
  exact and_assoc.symm

theorem clearFrom_of_not_located (h : vs.filter isLocated = []) : ClearFrom n vs := by
  have hempty : ∀ v ∈ vs, v.locations = ∅ := by
    intro v hv
    have hnot := List.filter_eq_nil_iff.1 h v hv
    cases hb : v.binding with
    | location n => simp [isLocated, hb] at hnot
    | system value => exact locations_of_system hb
  constructor
  · intro v hv
    simp [hempty v hv]
  · refine List.pairwise_of_forall_mem_list fun v hv w _ => ?_
    simp [hempty v hv]

end Varying

namespace Interface
open Varying Success
variable {site : Site} {output : Bool} {next : Nat} {fs : List Field} {vs : List Varying}

theorem varyingOf_cases (next : Nat) (f : Field) :
    (∃ value, (varyingOf next f).binding = .system value) ∧ freeAfter next f = next ∨
      (varyingOf next f).binding = .location next ∧
        freeAfter next f = (next + (varyingOf next f).elements) % locationRange := by
  cases hs : f.semantic.bind Semantic.systemValue? <;>
    simp [varyingOf, freeAfter, Field.isLocated, hs, Field.elements, Varying.elements]

/-- The first located varying, if there is one, has the next location. -/
theorem exists_next (hsolid : ∀ f ∈ fs, f.Solid) (hl : (layout next fs).filter isLocated ≠ []) :
    ∃ v ∈ layout next fs, next ∈ v.locations := by
  induction fs with
  | nil => simp [layout] at hl
  | cons f fs ih =>
    rw [List.forall_mem_cons] at hsolid
    rw [layout] at hl ⊢
    obtain ⟨⟨value, hv⟩, hfree⟩ | ⟨hv, -⟩ := varyingOf_cases next f
    · have hnot : (varyingOf next f).isLocated = false := by simp [isLocated, hv]
      rw [hfree] at hl ⊢
      obtain ⟨w, hw, hmem⟩ := ih hsolid.2 (by simpa [hnot] using hl)
      exact ⟨w, List.mem_cons_of_mem _ hw, hmem⟩
    · refine ⟨_, List.mem_cons_self, ?_⟩
      have hpos : 0 < (varyingOf next f).elements * (varyingOf next f).type.columns :=
        Nat.mul_pos hsolid.1.1.1 hsolid.1.2
      rw [locations_of_location hv, Finset.mem_Ico]
      omega

/-- What comes after a matrix, or after the last location, starts before the varying has ended. -/
theorem start_lt_of_not_fits {elements columns : Nat} (he : 0 < elements) (hc : 0 < columns)
    (h : ¬ (columns = 1 ∧ next + elements < locationRange)) :
    (next + elements) % locationRange < next + elements * columns := by
  by_cases hone : columns = 1
  · have hover : locationRange ≤ next + elements := by
      by_contra hlt
      exact h ⟨hone, by omega⟩
    have hmod : (next + elements) % locationRange < locationRange :=
      Nat.mod_lt _ (by simp [locationRange])
    rw [hone, Nat.mul_one]
    omega
  · have htwice : elements * 2 ≤ elements * columns := Nat.mul_le_mul_left _ (by omega)
    have hmod : (next + elements) % locationRange ≤ next + elements := Nat.mod_le _ _
    omega

theorem clearFrom_layout_iff (hsolid : ∀ f ∈ fs, f.Solid) (hnext : next < locationRange) :
    ClearFrom next (layout next fs) ↔ (∀ v ∈ followed (layout next fs), v.type.columns = 1) ∧
      next + ((followed (layout next fs)).map elements).sum < locationRange := by
  induction fs generalizing next with
  | nil => simp [layout, ClearFrom, Apart, followed, hnext]
  | cons f fs ih =>
    rw [List.forall_mem_cons] at hsolid
    rw [layout]
    obtain ⟨⟨value, hv⟩, hfree⟩ | ⟨hv, hfree⟩ := varyingOf_cases next f
    · rw [clearFrom_cons_system hv, followed_cons_system hv, hfree]
      exact ih hsolid.2 hnext
    · rw [clearFrom_cons_location hv, hfree]
      have helements : 0 < (varyingOf next f).elements := hsolid.1.1.1
      have hcolumns : 0 < (varyingOf next f).type.columns := hsolid.1.2
      generalize varyingOf next f = v at *
      by_cases hlocated : (layout ((next + v.elements) % locationRange) fs).filter isLocated = []
      · have hfollowed : followed (v :: layout ((next + v.elements) % locationRange) fs) = [] := by
          rw [followed, List.filter_cons]
          split <;> simp [hlocated]
        simp [clearFrom_of_not_located hlocated, hfollowed, hnext]
      · rw [followed_cons_location hv hlocated, List.forall_mem_cons, List.map_cons, List.sum_cons,
          ← Nat.add_assoc]
        by_cases hfits : v.type.columns = 1 ∧ next + v.elements < locationRange
        · -- The next varying starts where this one ends.
          obtain ⟨hone, hlt⟩ := hfits
          simp only [hone, Nat.mul_one, true_and, Nat.mod_eq_of_lt hlt]
          exact ih hsolid.2 hlt
        · -- The next varying starts inside this one, or from zero again.
          obtain ⟨w, hw, hmem⟩ := exists_next hsolid.2 hlocated
          have hbelow := start_lt_of_not_fits helements hcolumns hfits
          constructor
          · intro hclear
            exact absurd hmem (Finset.disjoint_left.1 (hclear.1 w hw) (Finset.mem_range.2 hbelow))
          · rintro ⟨⟨hone, -⟩, hsum⟩
            exact absurd ⟨hone, by omega⟩ hfits

/-- The stage inputs or outputs of a struct are at locations of their own exactly if none of them
but the last is a matrix, and if there are enough locations. -/
theorem apart_iff_of_structVaryings {file fileName : String} {tokens : List Placed} {p : Program}
    {outputs : List Output} {o : Output} {target : Target} {s : Selection} {name : String}
    (hp : Program.read file tokens = .ok p) (houtputs : p.outputs fileName = .ok outputs)
    (ho : o ∈ outputs) (hs : Selection.ofOutput p o target = .ok s)
    (hvs : structVaryings site output s.structs name = .ok vs) :
    Apart vs ↔ (∀ v ∈ followed vs, v.type.columns = 1) ∧
      ((followed vs).map elements).sum < locationRange := by
  unfold structVaryings at hvs
  split at hvs
  · cases hvs
  · next d hd =>
    have hsolid := Selection.solid_structs hp houtputs ho hs d (List.mem_of_find?_eq_some hd)
    obtain rfl := eq_layout_of_varyings hvs
    have hclear := clearFrom_layout_iff hsolid (show 0 < locationRange by simp [locationRange])
    rwa [clearFrom_zero, Nat.zero_add] at hclear

def placedTokens (text : String) : List Placed :=
  match tokenize text with
  | .ok ls => ls.map fun l => ⟨l.token, ⟨"m", l.line⟩⟩
  | .error _ => []

/-- A vertex shader that passes a matrix on, first before and then after a colour. -/
def matrixShader : List Placed :=
  placedTokens "#vert one\nSTRUCT(First)\x7bDATA(float4, position, SV_Position)\n" ++
    placedTokens "DATA(float4x4, frame, TEXCOORD0)DATA(float4, tint, COLOR)\x7d\n" ++
    placedTokens "STRUCT(Last)\x7bDATA(float4, tints[2], COLOR)\n" ++
    placedTokens "DATA(float4x4, frame, TEXCOORD0)\x7d\n#end"

/-- What the two structs of the shader make of their fields. -/
def matrixVaryings : Except Failure (List Varying × List Varying) := do
  let p ← Program.read "m" matrixShader
  let outputs ← p.outputs "m"
  match outputs with
  | [o] => do
    let s ← Selection.ofOutput p o .vulkan
    let first ← structVaryings ⟨"m", .vertex, .empty⟩ true s.structs "First"
    let last ← structVaryings ⟨"m", .vertex, .empty⟩ true s.structs "Last"
    return (first, last)
  | _ => .ok ([], [])

def matrixFirst : List Varying :=
  [⟨some "position", .vector .float 4, none, .system .position, none⟩,
    ⟨some "frame", .matrix .float 4 4, none, .location 0, some "TEXCOORD0"⟩,
    ⟨some "tint", .vector .float 4, none, .location 1, some "COLOR"⟩]

def matrixLast : List Varying :=
  [⟨some "tints", .vector .float 4, some 2, .location 0, some "COLOR"⟩,
    ⟨some "frame", .matrix .float 4 4, none, .location 2, some "TEXCOORD0"⟩]

/-- The colour is at a location of the matrix before it, and the matrix clear of the colours. -/
theorem apart_iff_of_structVaryings_matrixShader :
    ∃ p outputs o s, Program.read "m" matrixShader = .ok p ∧ p.outputs "m" = .ok outputs ∧
      o ∈ outputs ∧ Selection.ofOutput p o .vulkan = .ok s ∧
      structVaryings ⟨"m", .vertex, .empty⟩ true s.structs "First" = .ok matrixFirst ∧
      structVaryings ⟨"m", .vertex, .empty⟩ true s.structs "Last" = .ok matrixLast ∧
      matrixFirst.map locations = [∅, Finset.Ico 0 4, Finset.Ico 1 2] ∧
      ¬ Apart matrixFirst ∧ Apart matrixLast := by
  have hvaryings : matrixVaryings = .ok (matrixFirst, matrixLast) := by decide +kernel
  simp only [matrixVaryings, bind_eq_ok] at hvaryings
  obtain ⟨p, hp, outputs, houtputs, h⟩ := hvaryings
  split at h
  · next o =>
    simp only [bind_eq_ok, pure_eq_ok, Prod.mk.injEq] at h
    obtain ⟨s, hs, first, hfirst, last, hlast, rfl, rfl⟩ := h
    have ho : o ∈ [o] := List.mem_singleton.2 rfl
    refine ⟨p, [o], o, s, hp, houtputs, ho, hs, hfirst, hlast, by decide, ?_, ?_⟩
    · rw [apart_iff_of_structVaryings hp houtputs ho hs hfirst]
      decide
    · rw [apart_iff_of_structVaryings hp houtputs ho hs hlast]
      decide
  · cases h

end Interface
end ShaderDialect
