import ShaderDialect.Glsl.Shader
import ShaderDialect.Proofs.Emit.Assignments

/-! Stage inputs and outputs in GLSL. The variables that the interface declares are those that the
fields of the stage inputs are set from and that the stage outputs go to; system values are built
in. -/
namespace ShaderDialect.Glsl

open List Emit Success

structure Declaration where
  location : Nat
  flat : Bool
  type : ValueType
  name : String
  length : Option Nat

namespace Declaration

def flatText (flat : Bool) : String := if flat then "flat " else ""

/-- The line that declares a variable, after `in` or `out`. -/
def text (word : String) (d : Declaration) : String :=
  s!"layout(location = {d.location}) {flatText d.flat}" ++ word ++
    s!"{typeName d.type} {d.name}{arraySuffix d.length};"

/-- A variable for a varying at a location. -/
structure Fits (d : Declaration) (n : Nat) (v : Varying) : Prop where
  location : d.location = n
  type : d.type = v.type
  length : d.length = v.length

end Declaration

def builtins : Stage → List (SystemValue × String)
  | .vertex => [(.vertexId, "gl_VertexIndex"), (.instanceId, "gl_InstanceIndex"),
      (.viewId, "gl_ViewIndex")]
  | .pixel => [(.position, "gl_FragCoord"), (.primitiveId, "gl_PrimitiveID"),
      (.isFrontFace, "gl_FrontFacing"), (.viewId, "gl_ViewIndex")]
  | .compute => [(.dispatchThreadId, "gl_GlobalInvocationID"),
      (.groupThreadId, "gl_LocalInvocationID"), (.groupId, "gl_WorkGroupID"),
      (.groupIndex, "gl_LocalInvocationIndex")]

/-- Where an input comes from: from a variable that is declared for it, or from one that is built
in. The index of the view needs an extension. -/
inductive Comes (stage : Stage) (lines : List String) (ins : List Declaration) (v : Varying) :
    String → Prop
  | declared {n : Nat} {d : Declaration} (hb : v.binding = .location n) (hd : d ∈ ins)
      (hfits : d.Fits n v) : Comes stage lines ins v d.name
  | builtin {value : SystemValue} {name : String} (hb : v.binding = .system value)
      (hname : (value, name) ∈ builtins stage)
      (hview : value = .viewId → "#extension GL_EXT_multiview : require" ∈ lines) :
      Comes stage lines ins v s!"{typeName v.type}({name})"

inductive Goes (outs : List Declaration) (v : Varying) : String → Prop
  | declared {n : Nat} {d : Declaration}
      (hb : v.binding = .location n ∨ v.binding = .system (.target n)) (hd : d ∈ outs)
      (hfits : d.Fits n v) : Goes outs v d.name
  | position (hb : v.binding = .system .position) : Goes outs v "gl_Position"
  | depth (hb : v.binding = .system .depth) : Goes outs v "gl_FragDepth"

/-- `INIT_MAIN` in GLSL, where the variables for system values follow those for the stage inputs. -/
def SetsInputs (u : ShaderUnit) (indexing : Bool) (lines : List String) (ins : List Declaration) :
    Prop :=
  u.SetsInputs (language indexing) (u.interface.systemValues.filterMap systemLine?)
    (Comes u.stage lines ins)

def SendsOutputs (u : ShaderUnit) (indexing : Bool) (outs : List Declaration) (value : String) :
    Prop :=
  u.SendsOutputs (language indexing) [] "return;" (Goes outs) (outs.map Declaration.name) value

section Declaring
variable (stage : Stage) (v : Varying)

def inDeclaration? : Option Declaration :=
  match v.binding, v.field with
  | .location n, some field =>
    some ⟨n, stage == .pixel && v.type.isInteger, v.type, s!"_in_{field}", v.length⟩
  | _, _ => none

def outDeclaration? : Option Declaration :=
  match v.binding with
  | .location n | .system (.target n) =>
    some ⟨n, stage == .vertex && v.type.isInteger, v.type, outputName v, v.length⟩
  | .system _ => none

theorem inputDeclaration?_eq :
    inputDeclaration? stage v = (inDeclaration? stage v).map (Declaration.text "in ") := by
  cases hb : v.binding with
  | system value => simp only [inputDeclaration?, inDeclaration?, hb, Option.map_none]
  | location n =>
    cases hf : v.field with
    | none => simp only [inputDeclaration?, inDeclaration?, hb, hf, Option.map_none]
    | some field =>
      simp only [inputDeclaration?, inDeclaration?, hb, hf, Option.map_some, Option.some.injEq]
      unfold Declaration.text
      simp only [String.append_assoc]
      rfl

theorem outputDeclaration?_eq :
    outputDeclaration? stage v = (outDeclaration? stage v).map (Declaration.text "out ") := by
  cases hb : v.binding with
  | location n =>
    simp only [outputDeclaration?, outDeclaration?, hb, Option.map_some, Option.some.injEq]
    unfold Declaration.text
    simp only [String.append_assoc]
    rfl
  | system value =>
    cases value with
    | target n =>
      simp only [outputDeclaration?, outDeclaration?, hb, Option.map_some, Option.some.injEq]
      unfold Declaration.text
      simp only [String.append_assoc]
      rfl
    | _ => simp only [outputDeclaration?, outDeclaration?, hb, Option.map_none]

end Declaring

section Inputs
variable {u : ShaderUnit} {x : String} {v : Varying} {param struct : String}

def declaredIns (u : ShaderUnit) : List Declaration :=
  u.interface.inputs.filterMap (inDeclaration? u.stage)

def inputSource (v : Varying) : String :=
  match v.binding with
  | .location _ => "_in_" ++ v.field.getD ""
  | .system value => s!"{typeName v.type}({builtinInput value})"

theorem inputLine?_eq (hv : v.field.isSome) :
    inputLine? x v = some (.line (Assignment.line ⟨v.within x, inputSource v⟩)) := by
  obtain ⟨field, hfield⟩ := Option.isSome_iff_exists.1 hv
  cases hb : v.binding with
  | location n =>
    simp only [inputLine?, hfield, hb, Option.map_some, Varying.within, inputSource,
      Assignment.line, Option.getD_some]
    rfl
  | system value =>
    simp only [inputLine?, hfield, hb, Option.map_some, Varying.within, inputSource,
      Assignment.line, Option.getD_some]
    rfl

theorem initMain_eq (hparam : u.interface.structParam = some (param, struct)) (hu : u.Ready) :
    initMain u = .line s!"{struct} {respell param};" ::
      ((u.interface.inputs.map fun v =>
        Assignment.line ⟨v.within (respell param), inputSource v⟩).map Piece.line ++
        u.interface.systemValues.filterMap systemLine?) := by
  simp only [initMain, hparam, cons_append]
  rw [filterMap_eq_lines fun v hv => inputLine?_eq (hu.isSome_field hv)]

theorem mem_builtins {value : SystemValue} {stage : Stage} (h : value.allowed stage false = true) :
    (value, builtinInput value) ∈ builtins stage := by
  cases stage <;> cases value <;> first | decide | cases h

theorem comes_inputSource {lines : List String} (hu : u.Ready) (hv : v ∈ u.interface.inputs)
    (hview : v.binding = .system .viewId → "#extension GL_EXT_multiview : require" ∈ lines) :
    Comes u.stage lines (declaredIns u) v (inputSource v) := by
  obtain ⟨field, hcarries⟩ := hu.carries_input hv
  unfold inputSource
  cases hb : v.binding with
  | location n =>
    let d : Declaration :=
      ⟨n, u.stage == .pixel && v.type.isInteger, v.type, "_in_" ++ v.field.getD "", v.length⟩
    have hd : d ∈ declaredIns u := by
      refine mem_filterMap.2 ⟨v, hv, ?_⟩
      simp only [inDeclaration?, hb, hcarries.field, d]
      rfl
    exact .declared hb hd ⟨rfl, rfl, rfl⟩
  | system value =>
    refine .builtin hb (mem_builtins (hcarries.allowed value hb)) ?_
    rintro rfl
    exact hview hb

theorem setsInputs_iff {indexing : Bool} {lines : List String} (hu : u.Ready)
    (hview : ∀ v ∈ u.interface.inputs, v.binding = .system .viewId →
      "#extension GL_EXT_multiview : require" ∈ lines) :
    SetsInputs u indexing lines (declaredIns u) ↔ (u.interface.inputs.map Varying.field).Nodup := by
  refine ShaderUnit.setsInputs_iff hu (fun param struct hparam => initMain_eq hparam hu) ?_
  exact fun _ _ _ _ v hv => comes_inputSource hu hv (hview v hv)

end Inputs

section Outputs
variable {u : ShaderUnit} {v : Varying} {value : String}

def declaredOuts (u : ShaderUnit) : List Declaration :=
  u.interface.outputs.filterMap (outDeclaration? u.stage)

theorem goes_outputPlace (hu : u.Ready) (hv : v ∈ u.interface.outputs) :
    Goes (declaredOuts u) v (outputPlace v) := by
  have hdeclared : ∀ n, v.binding = .location n ∨ v.binding = .system (.target n) →
      Goes (declaredOuts u) v (outputName v) := by
    intro n hb
    let d : Declaration :=
      ⟨n, u.stage == .vertex && v.type.isInteger, v.type, outputName v, v.length⟩
    have hd : d ∈ declaredOuts u := by
      refine mem_filterMap.2 ⟨v, hv, ?_⟩
      rcases hb with hb | hb <;> simp only [outDeclaration?, hb, d]
    exact .declared hb hd ⟨rfl, rfl, rfl⟩
  unfold outputPlace
  obtain ⟨field, hcarries⟩ | ⟨-, hb⟩ := hu.output_cases hv
  · cases hb : v.binding with
    | location n => exact hdeclared n (.inl hb)
    | system value =>
      obtain rfl | rfl | ⟨n, rfl⟩ := Interface.output_of_allowed (hcarries.allowed value hb)
      · exact .position hb
      · exact .depth hb
      · exact hdeclared n (.inr hb)
  · rw [hb]
    exact hdeclared 0 (.inr hb)

theorem outputName_of_declaration {stage : Stage} {d : Declaration}
    (h : outDeclaration? stage v = some d) : d.name = outputPlace v := by
  unfold outDeclaration? at h
  unfold outputPlace
  split at h
  · next n hb =>
    cases h
    rw [hb]
  · next n hb =>
    cases h
    rw [hb]
  · cases h

theorem sendsOutputs_iff {indexing : Bool} (hu : u.Ready) (value : String) :
    SendsOutputs u indexing (declaredOuts u) value ↔
      (u.interface.outputs.map outputPlace).Nodup := by
  refine ShaderUnit.sendsOutputs_iff hu rfl (fun v hv => goes_outputPlace hu hv) ?_
  intro name hname
  obtain ⟨d, hd, rfl⟩ := mem_map.1 hname
  obtain ⟨v, hv, hsome⟩ := mem_filterMap.1 hd
  exact mem_map.2 ⟨v, hv, (outputName_of_declaration hsome).symm⟩

end Outputs

section Shader
variable {options : EmitOptions} {indexing : Bool} {u : ShaderUnit} {shader : Shader}

/-- The interface and the entry point among the lines of a shader. -/
structure LaidOut (u : ShaderUnit) (indexing : Bool) (lines : List String)
    (ins outs : List Declaration) : Prop where
  declared :
    paragraph (ins.map (Declaration.text "in ") ++ outs.map (Declaration.text "out ")) <:+: lines
  entry : ∃ body, block "void main()" body "\x7d" <:+ lines ∧ u.Marks (language indexing) body

theorem interfaceLines_eq : interfaceLines u =
    (declaredIns u).map (Declaration.text "in ") ++
      (declaredOuts u).map (Declaration.text "out ") := by
  rw [interfaceLines, declaredIns, declaredOuts, map_filterMap, map_filterMap,
    filterMap_congr fun v _ => inputDeclaration?_eq u.stage v,
    filterMap_congr fun v _ => outputDeclaration?_eq u.stage v]

theorem writesMarkers (hu : u.Ready) : (language indexing).WritesMarkers u := by
  constructor
  · have hsystem : ∀ p ∈ u.interface.systemValues.filterMap systemLine?, Layout.Ended p := by
      intro p hp
      obtain ⟨q, -, hq⟩ := mem_filterMap.1 hp
      obtain ⟨value, -, rfl⟩ := Option.map_eq_some_iff.1 hq
      exact ⟨_, rfl, Layout.getLast?_append (by decide) _⟩
    intro p hp
    have hp : p ∈ initMain u := hp
    cases hparam : u.interface.structParam with
    | none =>
      simp only [initMain, hparam, nil_append] at hp
      exact hsystem p hp
    | some q =>
      obtain ⟨param, struct⟩ := q
      rw [initMain_eq hparam hu, mem_cons, mem_append] at hp
      rcases hp with rfl | hp | hp
      · exact ⟨_, rfl, Layout.getLast?_append (by decide) _⟩
      · simp only [map_map, mem_map] at hp
        obtain ⟨v, -, rfl⟩ := hp
        exact Assignment.ended_line _
      · exact hsystem p hp
  · exact fun value => ⟨_, "return;", ShaderUnit.returnOutputs_eq hu, by decide⟩

theorem mem_extensions {v : Varying} (hv : v ∈ u.interface.inputs)
    (hb : v.binding = .system .viewId) : "GL_EXT_multiview" ∈ extensions indexing u := by
  have hview : (u.interface.inputs.any fun v => v.isSystem .viewId) = true := by
    refine any_eq_true.2 ⟨v, hv, ?_⟩
    simp [Varying.isSystem, hb]
  rw [extensions, Text.sortNames, mem_mergeSort]
  simp [hview]

theorem laidOut_generate (hu : u.Ready) (hg : generate options u = .ok shader) :
    ∃ lines, shader.source = ofLines lines ∧
      LaidOut u options.descriptorIndexing lines (declaredIns u) (declaredOuts u) ∧
      ∀ e ∈ extensions options.descriptorIndexing u, s!"#extension {e} : require" ∈ lines := by
  cases htable : u.table with
  | _ =>
    simp only [generate, htable, bind_eq_ok, pure_eq_ok] at hg
    obtain ⟨table, -, globals, -, helpers, -, body, hbody, rfl⟩ := hg
    refine ⟨_, rfl, ⟨?_, body, suffix_append _ _,
      ShaderUnit.marks_of_entryBody (writesMarkers hu) hu.starts hbody⟩, fun e he => ?_⟩
    · rw [← interfaceLines_eq]
      refine List.IsInfix.trans ?_ (((prefix_append _ (paragraph globals)).trans
        (prefix_append _ helpers.flatten)).trans
          ((prefix_append _ [""]).trans (prefix_append _ _))).isInfix
      exact (suffix_append _ _).isInfix
    · simp only [append_assoc]
      exact mem_append_right _ (mem_append_left _ (mem_map_of_mem he))

end Shader
end ShaderDialect.Glsl
