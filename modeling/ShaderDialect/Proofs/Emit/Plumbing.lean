import ShaderDialect.Proofs.Glsl.Plumbing
import ShaderDialect.Proofs.Msl.Plumbing

/-! Stage inputs and outputs of whole shaders. The interface that is declared and the lines of
`INIT_MAIN` and `RETURN` fit together exactly if no two fields meet at one place. -/
namespace ShaderDialect.ShaderUnit

open Emit

variable {p : Program} {tables : ResourceTables} {signatures : RootSignatures} {o : Output}
  {target : Target} {u : ShaderUnit}

/-- The stage inputs and outputs of a checked output are the fields of what its entry point takes
and returns. In its shaders, `INIT_MAIN` sets each field of the inputs once, in order, from what the
interface declares or the stage has for it, exactly if the fields have distinct names; and each
`RETURN` of a value writes each output once, to all that the interface declares and to what the
stage has, exactly if no two outputs have the same place. -/
theorem plumbed_iff_distinct (h : ofOutput p tables signatures o target = .ok u)
    (options : EmitOptions) :
    u.Ready ∧
    (∀ shader, Glsl.generate options u = .ok shader →
      ∃ lines ins outs, shader.source = ofLines lines ∧
        Glsl.LaidOut u options.descriptorIndexing lines ins outs ∧
        (Glsl.SetsInputs u options.descriptorIndexing lines ins ↔
          (u.interface.inputs.map Varying.field).Nodup) ∧
        ∀ value, (Glsl.SendsOutputs u options.descriptorIndexing outs value ↔
          (u.interface.outputs.map Glsl.outputPlace).Nodup)) ∧
    ∀ shader, Msl.generate options u = .ok shader →
      ∃ lines params ins outs, shader.source = ofLines lines ∧
        Msl.LaidOut options u lines params ins outs ∧
        (Msl.SetsInputs u (Msl.usesArgumentBuffers options u) params ins ↔
          (u.interface.inputs.map Varying.field).Nodup) ∧
        ∀ value, (Msl.SendsOutputs u (Msl.usesArgumentBuffers options u) outs value ↔
          (u.interface.outputs.map Msl.outputField).Nodup) := by
  have hu := ready_of_ofOutput h
  refine ⟨hu, ?_, ?_⟩
  · intro shader hg
    obtain ⟨lines, hsource, hlaid, hextensions⟩ := Glsl.laidOut_generate hu hg
    refine ⟨lines, _, _, hsource, hlaid, Glsl.setsInputs_iff hu ?_, Glsl.sendsOutputs_iff hu⟩
    exact fun v hv hb => hextensions _ (Glsl.mem_extensions hv hb)
  · intro shader hg
    obtain ⟨lines, hsource, hlaid⟩ := Msl.laidOut_generate hu hg
    exact ⟨lines, _, _, _, hsource, hlaid, Msl.setsInputs_iff hu, Msl.sendsOutputs_iff hu⟩

def meshLoc : Loc := ⟨"mesh.fsl", 1⟩

def meshEntry : EntryPoint :=
  ⟨.vertex,
    ⟨"VS_MAIN", .struct "VSOutput", [⟨.struct "VSInput", "input", none, .in_, none, meshLoc⟩],
    [.initMain meshLoc, .token ⟨.word "VSOutput", meshLoc⟩, .token ⟨.word "o", meshLoc⟩,
      .token ⟨.delim .semicolon, meshLoc⟩, .ret [[.token ⟨.word "o", meshLoc⟩]] meshLoc,
      .token ⟨.delim .semicolon, meshLoc⟩], meshLoc⟩, none, none, none⟩

/-- The program of `meshEntry`, with a name for the second field. -/
def meshProgram (second : String) : Program :=
  ⟨[.struct ⟨"VSInput", [
      .field ⟨.vector .float 3, "position", none, some ⟨"POSITION"⟩, meshLoc⟩,
      .field ⟨.scalar .uint, second, none, some ⟨"SV_VERTEXID"⟩, meshLoc⟩], meshLoc⟩,
    .struct ⟨"VSOutput", [
      .field ⟨.vector .float 4, "position", none, some ⟨"SV_POSITION"⟩, meshLoc⟩,
      .field ⟨.scalar .uint, "id", none, some ⟨"TEXCOORD0"⟩, meshLoc⟩], meshLoc⟩,
    .entry meshEntry]⟩

def meshOutput : Output := ⟨"mesh", .vertex, .empty, none⟩

theorem plumbed_iff_distinct_meshProgram :
    (∃ u shader lines ins outs,
      ofOutput (meshProgram "id") ⟨[]⟩ .standard meshOutput .vulkan = .ok u ∧
      Glsl.generate .standard u = .ok shader ∧ shader.source = ofLines lines ∧
      Glsl.LaidOut u EmitOptions.standard.descriptorIndexing lines ins outs ∧
      Glsl.SetsInputs u EmitOptions.standard.descriptorIndexing lines ins ∧
      Glsl.SendsOutputs u EmitOptions.standard.descriptorIndexing outs "o") ∧
    (∃ u shader lines params ins outs,
      ofOutput (meshProgram "id") ⟨[]⟩ .standard meshOutput .metal = .ok u ∧
      Msl.generate .standard u = .ok shader ∧ shader.source = ofLines lines ∧
      Msl.LaidOut .standard u lines params ins outs ∧
      Msl.SetsInputs u (Msl.usesArgumentBuffers .standard u) params ins ∧
      Msl.SendsOutputs u (Msl.usesArgumentBuffers .standard u) outs "o") ∧
    ∃ u shader lines params ins outs,
      ofOutput (meshProgram "position") ⟨[]⟩ .standard meshOutput .metal = .ok u ∧
      Msl.generate .standard u = .ok shader ∧ shader.source = ofLines lines ∧
      Msl.LaidOut .standard u lines params ins outs ∧
      ¬ Msl.SetsInputs u (Msl.usesArgumentBuffers .standard u) params ins := by
  refine ⟨?_, ?_, ?_⟩
  · obtain ⟨u, shader, hu, hg, hins, houts⟩ : ∃ u shader,
        ofOutput (meshProgram "id") ⟨[]⟩ .standard meshOutput .vulkan = .ok u ∧
        Glsl.generate .standard u = .ok shader ∧
        u.interface.inputs.map Varying.field = [some "position", some "id"] ∧
        u.interface.outputs.map Glsl.outputPlace = ["gl_Position", "_out_id"] :=
      ⟨_, _, rfl, rfl, rfl, rfl⟩
    obtain ⟨lines, ins, outs, hsource, hlaid, hsets, hsends⟩ :=
      (plumbed_iff_distinct hu .standard).2.1 shader hg
    rw [hins] at hsets
    rw [houts] at hsends
    exact ⟨u, shader, lines, ins, outs, hu, hg, hsource, hlaid, hsets.2 (by decide),
      (hsends "o").2 (by decide)⟩
  · obtain ⟨u, shader, hu, hg, hins, houts⟩ : ∃ u shader,
        ofOutput (meshProgram "id") ⟨[]⟩ .standard meshOutput .metal = .ok u ∧
        Msl.generate .standard u = .ok shader ∧
        u.interface.inputs.map Varying.field = [some "position", some "id"] ∧
        u.interface.outputs.map Msl.outputField = ["position", "id"] := ⟨_, _, rfl, rfl, rfl, rfl⟩
    obtain ⟨lines, params, ins, outs, hsource, hlaid, hsets, hsends⟩ :=
      (plumbed_iff_distinct hu .standard).2.2 shader hg
    rw [hins] at hsets
    rw [houts] at hsends
    exact ⟨u, shader, lines, params, ins, outs, hu, hg, hsource, hlaid, hsets.2 (by decide),
      (hsends "o").2 (by decide)⟩
  · obtain ⟨u, shader, hu, hg, hins⟩ : ∃ u shader,
        ofOutput (meshProgram "position") ⟨[]⟩ .standard meshOutput .metal = .ok u ∧
        Msl.generate .standard u = .ok shader ∧
        u.interface.inputs.map Varying.field = [some "position", some "position"] :=
      ⟨_, _, rfl, rfl, rfl⟩
    obtain ⟨lines, params, ins, outs, hsource, hlaid, hsets, -⟩ :=
      (plumbed_iff_distinct hu .standard).2.2 shader hg
    rw [hins] at hsets
    exact ⟨u, shader, lines, params, ins, outs, hu, hg, hsource, hlaid, mt hsets.1 (by decide)⟩

end ShaderDialect.ShaderUnit
