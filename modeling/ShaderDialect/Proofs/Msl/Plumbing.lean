import ShaderDialect.Proofs.Emit.Assignments
import ShaderDialect.Proofs.Msl.Scope

/-! Stage inputs and outputs in the Metal shading language. They are members of two structs, unless
they are system values that the entry point takes as parameters of their own. -/
namespace ShaderDialect.Msl

open List Emit Success

structure Member where
  type : ValueType
  name : String
  length : Option Nat
  mark : String

def Member.text (m : Member) : String :=
  s!"{typeName m.type} {m.name}{arraySuffix m.length} [[{m.mark}]];"

/-- A struct of the stage interface; one without members is not declared. -/
def stageStruct (name : String) (members : List Member) : List String :=
  if members.isEmpty then [] else structLines name (members.map Member.text)

/-- The attributes of the system values that a stage has. -/
def systemInputs : Stage → List (SystemValue × String)
  | .vertex =>
    [(.vertexId, "vertex_id"), (.instanceId, "instance_id"), (.viewId, "amplification_id")]
  | .pixel => [(.position, "position"), (.primitiveId, "primitive_id"),
      (.isFrontFace, "front_facing"), (.viewId, "amplification_id")]
  | .compute => [(.dispatchThreadId, "thread_position_in_grid"),
      (.groupThreadId, "thread_position_in_threadgroup"),
      (.groupId, "threadgroup_position_in_grid"), (.groupIndex, "thread_index_in_threadgroup")]

inductive InputAttribute (stage : Stage) (v : Varying) : String → Prop
  | vertex {n : Nat} (hb : v.binding = .location n) (hstage : stage = .vertex) :
      InputAttribute stage v s!"attribute({n})"
  | user {n : Nat} (hb : v.binding = .location n) (hstage : stage ≠ .vertex) :
      InputAttribute stage v (userLocation n v.type true)
  | system {value : SystemValue} {name : String} (hb : v.binding = .system value)
      (hname : (value, name) ∈ systemInputs stage) : InputAttribute stage v name

inductive OutputAttribute (stage : Stage) (v : Varying) : String → Prop
  | user {n : Nat} (hb : v.binding = .location n) :
      OutputAttribute stage v (userLocation n v.type (stage == .vertex))
  | color {n : Nat} (hb : v.binding = .system (.target n)) : OutputAttribute stage v s!"color({n})"
  | position (hb : v.binding = .system .position) : OutputAttribute stage v "position"
  | depth (hb : v.binding = .system .depth) : OutputAttribute stage v "depth(any)"

/-- A member for a varying. -/
structure Member.Fits (m : Member) (marks : String → Prop) (v : Varying) : Prop where
  type : m.type = v.type
  length : m.length = v.length
  mark : marks m.mark

/-- Where an input comes from: from a member of the struct that the entry point takes, or from a
parameter. -/
inductive Comes (stage : Stage) (params : List String) (ins : List Member) (v : Varying) :
    String → Prop
  | member {m : Member} (hm : m ∈ ins) (hfits : m.Fits (InputAttribute stage v) v)
      (hparam : "_StageIn _stage_in [[stage_in]]" ∈ params) :
      Comes stage params ins v s!"_stage_in.{m.name}"
  | parameter {value : SystemValue} {name mark : String} (hb : v.binding = .system value)
      (hmark : InputAttribute stage v mark)
      (hparam : s!"{typeName v.type} {name} [[{mark}]]" ∈ params) :
      Comes stage params ins v name

inductive Goes (stage : Stage) (outs : List Member) (v : Varying) : String → Prop
  | member {m : Member} (hm : m ∈ outs) (hfits : m.Fits (OutputAttribute stage v) v) :
      Goes stage outs v s!"_out.{m.name}"

def SetsInputs (u : ShaderUnit) (argumentBuffers : Bool) (params : List String)
    (ins : List Member) : Prop :=
  u.SetsInputs (language argumentBuffers) [] (Comes u.stage params ins)

def SendsOutputs (u : ShaderUnit) (argumentBuffers : Bool) (outs : List Member) (value : String) :
    Prop :=
  u.SendsOutputs (language argumentBuffers) ["_StageOut _out;"] "return _out;" (Goes u.stage outs)
    (outs.map fun m => s!"_out.{m.name}") value

variable {argumentBuffers : Bool}

section Inputs
variable {u : ShaderUnit} {v : Varying} {param struct : String}

def inMember (stage : Stage) (v : Varying) : Member :=
  ⟨v.type, v.field.getD "value", v.length, Msl.inputAttribute stage v⟩

def declaredIns (u : ShaderUnit) : List Member := (stageInputs u).map (inMember u.stage)

def inputSource (u : ShaderUnit) (param : String) (v : Varying) : String :=
  if hasStageInput u (v.field.getD "") then "_stage_in." ++ v.field.getD ""
  else systemField param (v.field.getD "")

theorem stageInLines_eq : stageInLines u = stageStruct "_StageIn" (declaredIns u) := by
  rw [stageInLines, stageStruct, declaredIns, isEmpty_map, map_map]
  rfl

theorem inputLine?_eq (hv : v.field.isSome) :
    inputLine? u param v =
      some (.line (Assignment.line ⟨v.within (respell param), inputSource u param v⟩)) := by
  obtain ⟨field, hfield⟩ := Option.isSome_iff_exists.1 hv
  simp only [inputLine?, hfield, Option.map_some, Varying.within, inputSource,
    Assignment.line, Option.getD_some]
  rfl

theorem initMain_eq (hparam : u.interface.structParam = some (param, struct)) (hu : u.Ready) :
    initMain u = .line s!"{struct} {respell param};" ::
      ((u.interface.inputs.map fun v =>
        Assignment.line ⟨v.within (respell param), inputSource u param v⟩).map Piece.line ++
          []) := by
  simp only [initMain, hparam, append_nil]
  rw [filterMap_eq_lines fun v hv => inputLine?_eq (hu.isSome_field hv)]

theorem mem_systemInputs {value : SystemValue} {stage : Stage}
    (h : value.allowed stage false = true) :
    (value, systemAttribute value) ∈ systemInputs stage := by
  cases stage <;> cases value <;> first | decide | cases h

theorem inputAttribute_spec (hu : u.Ready) (hv : v ∈ u.interface.inputs) :
    InputAttribute u.stage v (inputAttribute u.stage v) := by
  obtain ⟨field, hcarries⟩ := hu.carries_input hv
  unfold inputAttribute
  cases hb : v.binding with
  | location n =>
    by_cases hstage : u.stage = .vertex
    · simp only [if_pos hstage]
      exact .vertex hb hstage
    · simp only [if_neg hstage]
      exact .user hb hstage
  | system value => exact .system hb (mem_systemInputs (hcarries.allowed value hb))

/-- With distinct names, a field has the name of a member exactly if it is one. -/
theorem hasStageInput_iff (hnodup : (u.interface.inputs.map Varying.field).Nodup)
    (hv : v ∈ u.interface.inputs) {field : String} (hfield : v.field = some field) :
    hasStageInput u field = true ↔ inStage u.stage v = true := by
  constructor
  · intro h
    obtain ⟨w, hw, hname⟩ := any_eq_true.1 h
    obtain ⟨hmem, hstage⟩ := mem_filter.1 hw
    have hsame : w = v := by
      refine inj_on_of_nodup_map hnodup hmem hv ?_
      rw [hfield]
      exact eq_of_beq hname
    rwa [hsame] at hstage
  · intro hstage
    refine any_eq_true.2 ⟨v, mem_filter.2 ⟨hv, hstage⟩, ?_⟩
    rw [hfield]
    exact beq_self_eq_true _

theorem comes_inputSource (hu : u.Ready) (hnodup : (u.interface.inputs.map Varying.field).Nodup)
    (hparam : u.interface.structParam = some (param, struct)) (hv : v ∈ u.interface.inputs) :
    Comes u.stage (entryParams u) (declaredIns u) v (inputSource u param v) := by
  obtain ⟨field, hfield⟩ := Option.isSome_iff_exists.1 (hu.isSome_field hv)
  have hspec := inputAttribute_spec hu hv
  simp only [inputSource, hfield, Option.getD_some]
  by_cases hstage : inStage u.stage v = true
  · have hmem : v ∈ stageInputs u := mem_filter.2 ⟨hv, hstage⟩
    rw [if_pos ((hasStageInput_iff hnodup hv hfield).2 hstage)]
    have hin : inMember u.stage v ∈ declaredIns u := mem_map_of_mem hmem
    have hstruct : "_StageIn _stage_in [[stage_in]]" ∈ entryParams u := by
      have hempty : (stageInputs u).isEmpty = false := isEmpty_eq_false_iff_exists_mem.2 ⟨v, hmem⟩
      simp [entryParams, hempty]
    have hcomes := Comes.member hin ⟨rfl, rfl, hspec⟩ hstruct
    rw [inMember, hfield] at hcomes
    exact hcomes
  · have hnot : ¬ hasStageInput u field = true :=
      fun h => hstage ((hasStageInput_iff hnodup hv hfield).1 h)
    rw [if_neg hnot]
    cases hb : v.binding with
    | location n => exact absurd (by simp [inStage, hb]) hstage
    | system value =>
      refine .parameter hb hspec ?_
      have hsome : fieldParam? u param v =
          some s!"{typeName v.type} {systemField param field} [[{inputAttribute u.stage v}]]" := by
        simp only [fieldParam?, hfield, hb, inputAttribute, if_neg hnot]
      simp only [entryParams, hparam]
      refine mem_append_left _ (mem_append_right _ ?_)
      exact mem_filterMap.2 ⟨v, hv, hsome⟩

theorem setsInputs_iff (hu : u.Ready) :
    SetsInputs u argumentBuffers (entryParams u) (declaredIns u) ↔
      (u.interface.inputs.map Varying.field).Nodup := by
  refine ShaderUnit.setsInputs_iff hu (fun param struct hparam => initMain_eq hparam hu) ?_
  exact fun hnodup _ _ hparam v hv => comes_inputSource hu hnodup hparam hv

end Inputs

section Outputs
variable {u : ShaderUnit} {v : Varying} {value : String}

def outMember (stage : Stage) (v : Varying) : Member :=
  ⟨v.type, outputField v, v.length, outputAttribute stage v⟩

def declaredOuts (u : ShaderUnit) : List Member := u.interface.outputs.map (outMember u.stage)

theorem stageOutLines_eq : stageOutLines u = stageStruct "_StageOut" (declaredOuts u) := by
  rw [stageOutLines, stageStruct, declaredOuts, isEmpty_map, map_map]
  rfl

theorem outputAttribute_spec (hu : u.Ready) (hv : v ∈ u.interface.outputs) :
    OutputAttribute u.stage v (outputAttribute u.stage v) := by
  unfold outputAttribute
  obtain ⟨field, hcarries⟩ | ⟨-, hb⟩ := hu.output_cases hv
  · cases hb : v.binding with
    | location n => exact .user hb
    | system value =>
      obtain rfl | rfl | ⟨n, rfl⟩ := Interface.output_of_allowed (hcarries.allowed value hb)
      · exact .position hb
      · exact .depth hb
      · exact .color hb
  · rw [hb]
    exact .color hb

theorem nodup_outputPlace_iff {vs : List Varying} :
    (vs.map outputPlace).Nodup ↔ (vs.map outputField).Nodup := by
  have hmap : vs.map outputPlace = (vs.map outputField).map ("_out." ++ ·) := by
    rw [map_map]
    rfl
  rw [hmap, nodup_map_iff fun _ _ => (String.append_right_inj _).1]

theorem sendsOutputs_iff (hu : u.Ready) (value : String) :
    SendsOutputs u argumentBuffers (declaredOuts u) value ↔
      (u.interface.outputs.map outputField).Nodup := by
  refine Iff.trans ?_ nodup_outputPlace_iff
  refine ShaderUnit.sendsOutputs_iff hu rfl (fun v hv => ?_) ?_
  · exact .member (mem_map_of_mem hv) ⟨rfl, rfl, outputAttribute_spec hu hv⟩
  · rw [declaredOuts, map_map]
    exact List.Subset.refl _

end Outputs

section Shader
variable {options : EmitOptions} {u : ShaderUnit} {shader : Shader}

/-- The structs of the interface and the entry point among the lines of a shader. -/
structure LaidOut (options : EmitOptions) (u : ShaderUnit) (lines params : List String)
    (ins outs : List Member) : Prop where
  declared : stageStruct "_StageIn" ins ++ stageStruct "_StageOut" outs <:+: lines
  entry : ∃ result resources memory body,
    block (s!"{stageKeyword u.stage} {result} " ++
      callText (stageKeyword u.stage ++ "Main") (params ++ resources))
      (memory ++ body) "\x7d" <:+ lines ∧
    result = (if outs = [] then "void" else "_StageOut") ∧
    (∀ line ∈ memory, ∃ text : String, line = indented s!"threadgroup {text};") ∧
    u.Marks (language (usesArgumentBuffers options u)) body

theorem writesMarkers (hu : u.Ready) : (language argumentBuffers).WritesMarkers u := by
  constructor
  · intro p hp
    have hp : p ∈ initMain u := hp
    cases hparam : u.interface.structParam with
    | none =>
      simp only [initMain, hparam] at hp
      cases hp
    | some q =>
      obtain ⟨param, struct⟩ := q
      rw [initMain_eq hparam hu, append_nil, map_map, mem_cons, mem_map] at hp
      rcases hp with rfl | ⟨v, -, rfl⟩
      · exact ⟨_, rfl, Layout.getLast?_append (by decide) _⟩
      · exact Assignment.ended_line _
  · exact fun value => ⟨_, "return _out;", ShaderUnit.returnOutputs_eq hu, by decide⟩

theorem Parts.middle_within (parts : Parts options u) : parts.middle <:+: parts.lines :=
  ⟨parts.opening ++ parts.table, parts.helpers.flatten ++ "" :: parts.entryLines, by
    simp only [lines, append_assoc]⟩

theorem laidOut_generate (hu : u.Ready) (hg : generate options u = .ok shader) :
    ∃ lines, shader.source = ofLines lines ∧
      LaidOut options u lines (entryParams u) (declaredIns u) (declaredOuts u) := by
  obtain ⟨parts, hsource⟩ := exists_parts hg
  refine ⟨parts.lines, hsource, ?_, _, parts.params, parts.memory, parts.body,
    parts.entry_suffix, ?_, fun _ => parts.mem_memory, ?_⟩
  · rw [← stageInLines_eq, ← stageOutLines_eq]
    exact (prefix_append _ _).isInfix.trans parts.middle_within
  · simp only [declaredOuts, List.map_eq_nil_iff, List.isEmpty_iff]
  · exact ShaderUnit.marks_of_entryBody (writesMarkers hu) hu.starts parts.body_eq

end Shader
end ShaderDialect.Msl
