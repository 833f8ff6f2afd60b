import ShaderDialect.Proofs.Emit.Markers
import ShaderDialect.Proofs.Interface.Fields
import ShaderDialect.Proofs.ShaderUnit.Resources

/-! Lines that set places one after the other, such as the fields of the stage inputs or the stage
outputs. -/
namespace ShaderDialect

open List Success

structure Assignment where
  place : String
  source : String
  deriving Repr, DecidableEq

namespace Assignment
variable (a : Assignment)

def line (a : Assignment) : String := s!"{a.place} = {a.source};"

theorem line_eq : a.line = a.place ++ (" = " ++ a.source ++ ";") := by
  simp only [line, String.append_assoc]
  rfl

theorem line_ret (place field : String) :
    place ++ " = _ret." ++ field ++ ";" = line ⟨place, "_ret." ++ field⟩ := by
  have hret : " = _ret." = " = " ++ "_ret." := by decide
  simp only [line, toString, hret, String.append_assoc]

theorem ended_line : Layout.Ended (.line a.line) :=
  ⟨_, rfl, Layout.getLast?_append (by decide) _⟩

theorem place_eq_of_line {a b : Assignment} (h : a.line = b.line) (hsource : a.source = b.source) :
    a.place = b.place := by
  rw [line_eq, line_eq, hsource] at h
  exact (String.append_left_inj _).1 h

end Assignment

/-- Each of some varyings has a line that sets a place for it, in their order. No place is set
twice, and all of those that are declared are set. -/
def SetsEach (sets : Varying → Assignment → Prop) (vs : List Varying)
    (declared texts : List String) : Prop :=
  ∃ as : List Assignment, texts = as.map Assignment.line ∧ List.Forall₂ sets vs as ∧
    (as.map Assignment.place).Nodup ∧ declared ⊆ as.map Assignment.place

section SetsEach
variable {sets : Varying → Assignment → Prop} {assign : Varying → Assignment} {vs : List Varying}
  {declared : List String}

theorem setsEach_of_nodup (hsets : ∀ v ∈ vs, sets v (assign v))
    (hnodup : (vs.map fun v => (assign v).place).Nodup)
    (hdeclared : declared ⊆ vs.map fun v => (assign v).place) :
    SetsEach sets vs declared (vs.map fun v => (assign v).line) := by
  have hplaces : (vs.map assign).map Assignment.place = vs.map fun v => (assign v).place := by
    rw [map_map]
    rfl
  refine ⟨vs.map assign, by rw [map_map]; rfl, ?_, by rwa [hplaces], by rwa [hplaces]⟩
  rw [forall₂_map_right_iff, forall₂_same]
  exact hsets

theorem nodup_of_setsEach
    (hplace : ∀ v ∈ vs, ∀ a, sets v a → a.line = (assign v).line → a.place = (assign v).place)
    (h : SetsEach sets vs declared (vs.map fun v => (assign v).line)) :
    (vs.map fun v => (assign v).place).Nodup := by
  obtain ⟨as, htexts, hsets, hnodup, -⟩ := h
  have hplaces : as.map Assignment.place = vs.map fun v => (assign v).place := by
    clear hnodup
    induction hsets with
    | nil => rfl
    | @cons v a vs as hv _ ih =>
      rw [map_cons, map_cons, List.cons.injEq] at htexts
      rw [map_cons, map_cons, hplace v mem_cons_self a hv htexts.1.symm,
        ih (fun v hv => hplace v (mem_cons_of_mem _ hv)) htexts.2]
  rwa [hplaces] at hnodup

theorem filterMap_eq_lines {line? : Varying → Option Piece}
    (h : ∀ v ∈ vs, line? v = some (.line (assign v).line)) :
    vs.filterMap line? = (vs.map fun v => (assign v).line).map Piece.line := by
  rw [map_map, filterMap_eq_map_iff_forall_eq_some]
  exact h

end SetsEach

namespace Varying
variable {x : String}

/-- What is sent of a value that is returned: a field of it, or the value itself. -/
def sent (value : String) (v : Varying) : String :=
  match v.field with
  | some field => s!"_ret.{field}"
  | none => value

/-- The place of a field in a variable. -/
def within (x : String) (v : Varying) : String := x ++ "." ++ v.field.getD ""

theorem within_inj {v w : Varying} (hv : v.field.isSome) (hw : w.field.isSome)
    (h : v.within x = w.within x) : v.field = w.field := by
  obtain ⟨field, hfield⟩ := Option.isSome_iff_exists.1 hv
  obtain ⟨field', hfield'⟩ := Option.isSome_iff_exists.1 hw
  have h : x ++ "." ++ field = x ++ "." ++ field' := by
    rw [within, within, hfield, hfield'] at h
    exact h
  rw [hfield, hfield', (String.append_right_inj _).1 h]

theorem nodup_within_iff {vs : List Varying} (h : ∀ v ∈ vs, v.field.isSome) :
    (vs.map (within x)).Nodup ↔ (vs.map Varying.field).Nodup := by
  have hmap : vs.map (within x) = (vs.map Varying.field).map (x ++ "." ++ ·.getD "") := by
    rw [map_map]
    rfl
  constructor
  · intro hnodup
    rw [hmap] at hnodup
    exact hnodup.of_map
  · intro hnodup
    rw [hmap]
    refine List.Nodup.map_on ?_ hnodup
    intro field hfield field' hfield' he
    obtain ⟨v, hv, rfl⟩ := mem_map.1 hfield
    obtain ⟨w, hw, rfl⟩ := mem_map.1 hfield'
    exact within_inj (h v hv) (h w hw) he

end Varying

namespace Interface
variable {stage : Stage} {output : Bool} {structs : List StructDef} {name : String}
  {vs : List Varying} {i : Interface} {f : Function}

theorem CarryStruct.exists_field (h : CarryStruct stage output structs name vs) :
    ∀ v ∈ vs, ∃ field, Carries stage output field v := by
  obtain ⟨d, -, -, hfields⟩ := h
  generalize d.fields = fields at hfields
  induction hfields with
  | nil => simp
  | cons hv _ ih => exact forall_mem_cons.2 ⟨⟨_, hv⟩, ih⟩

variable {v : Varying}

theorem Describes.carries_input (h : i.Describes structs f) (hv : v ∈ i.inputs) :
    ∃ field, Carries i.stage false field v := by
  cases hparam : i.structParam with
  | none =>
    rw [h.inputs.empty hparam] at hv
    cases hv
  | some p => exact (h.inputs.fields p.1 p.2 hparam).2.exists_field v hv

/-- An output is a field of the struct that is returned, or it is the value that is. -/
theorem Describes.output_cases (h : i.Describes structs f) (hv : v ∈ i.outputs) :
    (∃ struct field, f.returns = .struct struct ∧ Carries i.stage true field v) ∨
      (∀ struct, f.returns ≠ .struct struct) ∧ v.field = none ∧
        v.binding = .system (.target 0) := by
  by_cases hvoid : f.returns = .void
  · rw [h.outputs.empty hvoid] at hv
    cases hv
  by_cases hstruct : ∃ struct, f.returns = .struct struct
  · obtain ⟨struct, hstruct⟩ := hstruct
    obtain ⟨field, hfield⟩ := (h.outputs.fields struct hstruct).exists_field v hv
    exact .inl ⟨struct, field, hstruct, hfield⟩
  · have hnot : ∀ struct, f.returns ≠ .struct struct := fun struct he => hstruct ⟨struct, he⟩
    rw [(h.outputs.value hvoid hnot).2, mem_singleton] at hv
    exact .inr ⟨hnot, by rw [hv], by rw [hv]⟩

end Interface

/-- The variable that holds a struct which is returned. -/
def ValueType.held (value : String) : ValueType → List String
  | .struct name => [s!"{name} _ret = {value};"]
  | _ => []

def ValueType.plain (value : String) : ValueType → Option String
  | .struct _ => none
  | _ => some value

namespace ShaderUnit
variable {p : Program} {tables : ResourceTables} {signatures : RootSignatures} {o : Output}
  {target : Target} {u : ShaderUnit} {v : Varying}

/-- What is known of the entry point of a checked output. -/
structure Ready (u : ShaderUnit) : Prop where
  describes : u.interface.Describes u.structs u.entry.function
  stage : u.interface.stage = u.stage
  starts : EntryPoint.startsOnce u.entry.function.body

theorem ready_of_ofOutput (h : ofOutput p tables signatures o target = .ok u) : u.Ready := by
  simp only [ofOutput, bind_eq_ok, pure_eq_ok] at h
  obtain ⟨s, -, e, he, ⟨⟩, -, own, -, interface, hinterface, ⟨⟩, hbody, found, -, ⟨⟩, -, ⟨⟩, -,
    helpers, -, ⟨⟩, -, rfl⟩ := h
  obtain ⟨hdescribes, hstage⟩ := Interface.describes_ofFunction hinterface
  refine ⟨hdescribes, hstage.trans ?_, ?_⟩
  · unfold entryOf at he
    split at he
    · cases he
    · split at he
      · next hsame =>
        cases he
        exact hsame
      · cases he
    · cases he
  · have hfault := failIf_eq_ok.1 hbody
    unfold EntryPoint.bodyFault? at hfault
    split at hfault
    · cases hfault
    · split at hfault
      · assumption
      · cases hfault

theorem Ready.carries_input (hu : u.Ready) (hv : v ∈ u.interface.inputs) :
    ∃ field, Interface.Carries u.stage false field v := by
  obtain ⟨field, hfield⟩ := hu.describes.carries_input hv
  rw [hu.stage] at hfield
  exact ⟨field, hfield⟩

theorem Ready.isSome_field (hu : u.Ready) (hv : v ∈ u.interface.inputs) : v.field.isSome := by
  obtain ⟨field, hfield⟩ := hu.carries_input hv
  rw [hfield.field]
  rfl

theorem Ready.output_cases (hu : u.Ready) (hv : v ∈ u.interface.outputs) :
    (∃ field, Interface.Carries u.stage true field v) ∨
      v.field = none ∧ v.binding = .system (.target 0) := by
  obtain ⟨_, field, -, hfield⟩ | ⟨-, hvalue⟩ := hu.describes.output_cases hv
  · rw [hu.stage] at hfield
    exact .inl ⟨field, hfield⟩
  · exact .inr hvalue

theorem Ready.plain_eq (hu : u.Ready) (hv : v ∈ u.interface.outputs) (hnone : v.field = none)
    (value : String) : u.entry.function.returns.plain value = some value := by
  obtain ⟨_, field, -, hfield⟩ | ⟨hnot, -⟩ := hu.describes.output_cases hv
  · rw [hfield.field] at hnone
    cases hnone
  · cases hreturns : u.entry.function.returns with
    | struct name => exact absurd hreturns (hnot name)
    | _ => rfl

variable {l : Language} {more : List Piece} {comes goes : Varying → String → Prop}
  {opening declared : List String} {closing value : String}

/-- `INIT_MAIN` declares the variable of the stage inputs and sets each of its fields once, from
where the input comes. -/
def SetsInputs (u : ShaderUnit) (l : Language) (more : List Piece)
    (comes : Varying → String → Prop) : Prop :=
  ∀ param struct, u.interface.structParam = some (param, struct) → ∃ texts : List String,
    l.initMain u = .line s!"{struct} {l.respell param};" :: (texts.map Piece.line ++ more) ∧
      SetsEach
        (fun v a => (∃ field, v.field = some field ∧ a.place = s!"{l.respell param}.{field}") ∧
        comes v a.source) u.interface.inputs [] texts

/-- `RETURN` of a value sends each stage output once, to where the output goes, and then returns. -/
def SendsOutputs (u : ShaderUnit) (l : Language) (opening : List String) (closing : String)
    (goes : Varying → String → Prop) (declared : List String) (value : String) : Prop :=
  ∃ texts, l.returns u (some value) =
      Layout.braced (u.entry.function.returns.held value ++ opening ++ texts ++ [closing]) ∧
    SetsEach (fun v a => goes v a.place ∧ a.source = v.sent value) u.interface.outputs
      declared texts

/-- Where every input has its line, what can go wrong is that two fields share a name. -/
theorem setsInputs_iff (hu : u.Ready) {source : String → Varying → String}
    (hinit : ∀ param struct, u.interface.structParam = some (param, struct) →
      l.initMain u = .line s!"{struct} {l.respell param};" ::
        ((u.interface.inputs.map fun v =>
          Assignment.line ⟨v.within (l.respell param), source param v⟩).map Piece.line ++ more))
    (hcomes : (u.interface.inputs.map Varying.field).Nodup → ∀ param struct,
      u.interface.structParam = some (param, struct) →
        ∀ v ∈ u.interface.inputs, comes v (source param v)) :
    u.SetsInputs l more comes ↔ (u.interface.inputs.map Varying.field).Nodup := by
  have hfields : ∀ v ∈ u.interface.inputs, v.field.isSome := fun v hv => hu.isSome_field hv
  constructor
  · intro hsets
    cases hparam : u.interface.structParam with
    | none =>
      rw [hu.describes.inputs.empty hparam]
      exact nodup_nil
    | some p =>
      obtain ⟨texts, htexts, heach⟩ := hsets p.1 p.2 hparam
      rw [hinit p.1 p.2 hparam, List.cons.injEq, append_left_inj] at htexts
      rw [← map_injective_iff.2 (fun _ _ => Piece.line.inj) htexts.2] at heach
      refine (Varying.nodup_within_iff hfields).1 (nodup_of_setsEach ?_ heach)
      intro v hv a hset _
      obtain ⟨⟨field, hfield, hplace⟩, -⟩ := hset
      rw [hplace, Varying.within, hfield]
      rfl
  · intro hnodup param struct hparam
    refine ⟨_, hinit param struct hparam, setsEach_of_nodup (fun v hv => ⟨?_, ?_⟩) ?_
      (nil_subset _)⟩
    · obtain ⟨field, hfield⟩ := Option.isSome_iff_exists.1 (hfields v hv)
      refine ⟨field, hfield, ?_⟩
      rw [Varying.within, hfield]
      rfl
    · exact hcomes hnodup param struct hparam v hv
    · exact (Varying.nodup_within_iff hfields).2 hnodup

section Outputs
variable {place : Varying → String}

theorem outputLine?_eq {plain : Option String} (h : v.field = none → plain = some value) :
    outputLine? place plain v = some (.line (Assignment.line ⟨place v, v.sent value⟩)) := by
  cases hfield : v.field with
  | some field =>
    simp only [outputLine?, hfield, Varying.sent]
    exact congrArg _ (congrArg _ (Assignment.line_ret _ _))
  | none => simp only [outputLine?, hfield, h hfield, Varying.sent, Assignment.line]

theorem returnOutputs_eq (hu : u.Ready) : u.returnOutputs place opening closing (some value) =
    Layout.braced (u.entry.function.returns.held value ++ opening ++
      (u.interface.outputs.map fun v => Assignment.line ⟨place v, v.sent value⟩) ++ [closing]) := by
  rw [Layout.braced, map_append, map_append,
    ← filterMap_eq_lines fun v hv => outputLine?_eq fun hnone => hu.plain_eq hv hnone value]
  unfold returnOutputs
  cases u.entry.function.returns <;> simp [ValueType.held, ValueType.plain]

/-- Where every output has its line, what can go wrong is that two go to the same place. -/
theorem sendsOutputs_iff (hu : u.Ready)
    (hreturns : l.returns u = u.returnOutputs place opening closing)
    (hgoes : ∀ v ∈ u.interface.outputs, goes v (place v))
    (hdeclared : declared ⊆ u.interface.outputs.map place) :
    u.SendsOutputs l opening closing goes declared value ↔
      (u.interface.outputs.map place).Nodup := by
  rw [SendsOutputs, hreturns, returnOutputs_eq hu]
  constructor
  · rintro ⟨texts, htexts, heach⟩
    have hlines := Layout.braced_inj htexts
    rw [append_left_inj, append_right_inj] at hlines
    rw [← hlines] at heach
    exact nodup_of_setsEach (fun v _ a hset hline => Assignment.place_eq_of_line hline hset.2) heach
  · intro hnodup
    exact ⟨_, rfl, setsEach_of_nodup (fun v hv => ⟨hgoes v hv, rfl⟩) hnodup hdeclared⟩

end Outputs
end ShaderUnit
end ShaderDialect
