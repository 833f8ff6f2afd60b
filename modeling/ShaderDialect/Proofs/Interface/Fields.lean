import ShaderDialect.Proofs.Success
import ShaderDialect.ShaderUnit

/-! Which fields cross the boundary of an entry point. The inputs are the fields of the struct that
the entry point takes, and the outputs are those of the struct that it returns, in their order. -/
namespace ShaderDialect

open Success

/-- Whether the field is passed at a location, not as a system value. -/
def Field.isLocated (f : Field) : Bool := (f.semantic.bind Semantic.systemValue?).isNone

def Field.elements (f : Field) : Nat := f.length.getD 1

namespace Interface
variable {value : SystemValue} {stage : Stage} {i : Interface} {site : Site} {output : Bool}
  {structs : List StructDef} {struct : String} {next : Nat} {f : Field} {fs : List Field}
  {vs : List Varying}

/-- A varying carries a field of a struct. It is a system value exactly if the field's semantic says
so, and then one that the stage has. -/
structure Carries (stage : Stage) (output : Bool) (f : Field) (v : Varying) : Prop where
  field : v.field = some f.name
  type : v.type = f.type
  length : v.length = f.length
  system : ∀ value, v.binding = .system value ↔ f.semantic.bind Semantic.systemValue? = some value
  allowed : ∀ value, v.binding = .system value → value.allowed stage output = true

theorem allowed_of_fault? {features : FeatureSet} (h : value.fault? stage output features = none) :
    value.allowed stage output = true := by
  by_contra hnot
  rw [Bool.not_eq_true] at hnot
  simp [SystemValue.fault?, hnot] at h

/-- What a field is passed as where the next location is free. -/
def varyingOf (next : Nat) (f : Field) : Varying where
  field := some f.name
  type := f.type
  length := f.length
  binding := ((f.semantic.bind Semantic.systemValue?).map .system).getD (.location next)
  semantic := if f.isLocated then f.semantic.map Semantic.text else none

def freeAfter (next : Nat) (f : Field) : Nat :=
  if f.isLocated then (next + f.elements) % locationRange else next

/-- A stage lets a field cross its boundary. -/
structure Crosses (site : Site) (output : Bool) (f : Field) : Prop where
  system : ∀ value, f.semantic.bind Semantic.systemValue? = some value →
    value.fault? site.stage output site.features = none
  located : f.isLocated = true → ¬ (site.stage = .pixel ∧ output = true)
  type : cannotCross f.type = false

/-- A stage decides about each field by itself, and all it counts are the locations. -/
theorem varyings_cons : varyings site output struct next (f :: fs) = .ok vs ↔
    Crosses site output f ∧ ∃ rest, varyings site output struct (freeAfter next f) fs = .ok rest ∧
      varyingOf next f :: rest = vs := by
  have hcrosses : Crosses site output f ↔
      (∀ value, f.semantic.bind Semantic.systemValue? = some value →
        value.fault? site.stage output site.features = none) ∧
      (f.isLocated = true → ¬ (site.stage = .pixel ∧ output = true)) ∧ cannotCross f.type = false :=
    ⟨fun h => ⟨h.system, h.located, h.type⟩, fun h => ⟨h.1, h.2.1, h.2.2⟩⟩
  rw [hcrosses, varyings, bindingOf]
  cases hs : f.semantic.bind Semantic.systemValue? with
  | none =>
    by_cases hpixel : site.stage = .pixel ∧ output = true
    · simp [hpixel, Site.fail, Field.isLocated, hs]
    · cases ht : cannotCross f.type <;>
        simp [hpixel, Site.fail, Field.isLocated, hs, bind_eq_ok, varyingOf, freeAfter,
          Field.elements]
  | some value =>
    cases hfault : value.fault? site.stage output site.features <;>
      cases ht : cannotCross f.type <;>
      simp [hfault, Site.fail, Field.isLocated, hs, bind_eq_ok, varyingOf, freeAfter]

/-- What the fields of a struct are passed as, in whatever stage. -/
def layout : (next : Nat) → List Field → List Varying
  | _, [] => []
  | next, f :: fs => varyingOf next f :: layout (freeAfter next f) fs

theorem eq_layout_of_varyings (h : varyings site output struct next fs = .ok vs) :
    vs = layout next fs := by
  induction fs generalizing next vs with
  | nil =>
    cases h
    rfl
  | cons f fs ih =>
    obtain ⟨-, rest, hrest, rfl⟩ := varyings_cons.1 h
    rw [layout, ih hrest]

theorem carries_varyingOf (h : Crosses site output f) :
    Carries site.stage output f (varyingOf next f) := by
  have hsystem (value : SystemValue) : (varyingOf next f).binding = .system value ↔
      f.semantic.bind Semantic.systemValue? = some value := by
    cases hs : f.semantic.bind Semantic.systemValue? <;> simp [varyingOf, hs]
  exact ⟨rfl, rfl, rfl, hsystem,
    fun value hvalue => allowed_of_fault? (h.system value ((hsystem value).1 hvalue))⟩

theorem carries_varyings (h : varyings site output struct next fs = .ok vs) :
    List.Forall₂ (Carries site.stage output) fs vs := by
  induction fs generalizing next vs with
  | nil =>
    cases h
    exact .nil
  | cons f fs ih =>
    obtain ⟨hcrosses, rest, hrest, rfl⟩ := varyings_cons.1 h
    exact .cons (carries_varyingOf hcrosses) (ih hrest)

/-- Varyings that carry the fields of a struct. -/
def CarryStruct (stage : Stage) (output : Bool) (structs : List StructDef) (name : String)
    (vs : List Varying) : Prop :=
  ∃ d ∈ structs, d.name = name ∧ List.Forall₂ (Carries stage output) d.fields vs

theorem carryStruct_structVaryings {name : String} {vs : List Varying}
    (h : structVaryings site output structs name = .ok vs) :
    CarryStruct site.stage output structs name vs := by
  unfold structVaryings at h
  split at h
  · cases h
  · next d hd =>
    have hname := List.find?_some hd
    exact ⟨d, List.mem_of_find?_eq_some hd, eq_of_beq hname, carries_varyings h⟩

/-- The inputs are the fields of the struct that one of the parameters takes. -/
structure Receives (structs : List StructDef) (params : List Param) (i : Interface) : Prop where
  empty : i.structParam = none → i.inputs = []
  fields : ∀ param struct, i.structParam = some (param, struct) →
    (∃ q ∈ params, q.name = param ∧ q.type = .struct struct) ∧
      CarryStruct i.stage false structs struct i.inputs

theorem receives_addParam {params : List Param} {p : Param} {i' : Interface}
    (h : addParam site structs i p = .ok i') (hi : Receives structs params i)
    (hstage : i.stage = site.stage) :
    Receives structs (params ++ [p]) i' ∧ i'.stage = site.stage := by
  simp only [addParam] at h
  split at h
  · cases h
  split at h
  · simp only [bind_eq_ok, pure_eq_ok] at h
    obtain ⟨⟨⟩, -, ⟨⟩, -, rfl⟩ := h
    refine ⟨⟨hi.empty, fun param struct hparam => ?_⟩, hstage⟩
    obtain ⟨⟨q, hq, htype⟩, hfields⟩ := hi.fields param struct hparam
    exact ⟨⟨q, List.mem_append_left _ hq, htype⟩, hfields⟩
  · next name _ htype =>
    split at h
    · cases h
    · simp only [bind_eq_ok, pure_eq_ok] at h
      obtain ⟨inputs, hinputs, rfl⟩ := h
      refine ⟨⟨fun hnone => ?_, fun param struct hparam => ?_⟩, hstage⟩
      · cases hnone
      · cases hparam
        refine ⟨⟨p, List.mem_append_right _ List.mem_cons_self, rfl, htype⟩, ?_⟩
        rw [hstage]
        exact carryStruct_structVaryings hinputs
  · cases h

/-- The outputs are the fields of the struct that is returned, or the value that is. -/
structure Sends (structs : List StructDef) (returns : ValueType) (i : Interface) : Prop where
  empty : returns = .void → i.outputs = []
  fields : ∀ struct, returns = .struct struct → CarryStruct i.stage true structs struct i.outputs
  value : returns ≠ .void → (∀ struct, returns ≠ .struct struct) →
    i.stage = .pixel ∧ i.outputs = [⟨none, returns, none, .system (.target 0), none⟩]

theorem sends_outputsOf {returns : ValueType} {outputs : List Varying}
    (h : outputsOf site structs returns = .ok outputs) (hstage : i.stage = site.stage) :
    Sends structs returns { i with outputs } := by
  unfold outputsOf at h
  split at h
  · cases h
    refine ⟨fun _ => rfl, fun struct he => ?_, fun hne => absurd rfl hne⟩
    cases he
  · next name =>
    refine ⟨fun he => ?_, fun struct he => ?_, fun _ hne => absurd rfl (hne name)⟩
    · cases he
    · cases he
      have hfields := carryStruct_structVaryings h
      rwa [← hstage] at hfields
  · next hvoid hstruct =>
    split at h
    · next hpixel =>
      cases h
      exact ⟨fun he => absurd he hvoid, fun struct he => absurd he (hstruct struct),
        fun _ _ => ⟨hstage.trans hpixel, rfl⟩⟩
    · cases h

theorem output_of_allowed (h : value.allowed stage true = true) :
    value = .position ∨ value = .depth ∨ ∃ n, value = .target n := by
  cases stage <;> cases value <;> simp_all [SystemValue.allowed]

/-- What an interface takes from and gives to a function. -/
structure Describes (i : Interface) (structs : List StructDef) (f : Function) : Prop where
  inputs : Receives structs f.params i
  outputs : Sends structs f.returns i

theorem describes_ofFunction {f : Function} (h : ofFunction site structs f = .ok i) :
    i.Describes structs f ∧ i.stage = site.stage := by
  simp only [ofFunction, bind_eq_ok] at h
  obtain ⟨i', hi', outputs, houtputs, h⟩ := h
  have hreceives := foldlM_induction
    (fun done i => Receives structs done i ∧ i.stage = site.stage) hi'
    ⟨⟨fun _ => rfl, by simp⟩, rfl⟩
    (fun done p i i' _ hi hstep => receives_addParam hstep hi.1 hi.2)
  split at h
  · cases h
  · cases h
    obtain ⟨⟨hempty, hfields⟩, hstage⟩ := hreceives
    exact ⟨⟨⟨hempty, hfields⟩, sends_outputsOf houtputs hstage⟩, hstage⟩

end Interface
end ShaderDialect
