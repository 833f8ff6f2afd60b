import ShaderDialect.Proofs.Emit.Naming
import ShaderDialect.Proofs.ResourceTable.Slots

/-! Resources in Metal shaders. Helpers take them as parameters and entry points as parameters or in
argument buffers; every resource that a body spells is one of those, and every call of a helper
hands on what its definition takes. -/
namespace ShaderDialect

open List Success

namespace ShaderUnit
variable {u : ShaderUnit} {n : String}

theorem helper?_eq_some (hu : u.Closed) {h : UnitFunction} :
    u.helper? n = some h ↔ h ∈ u.helpers ∧ h.function.name = n :=
  find?_eq_some_of_nodup hu.nodup

variable {x : Frequency × TableResource}

theorem mem_of_resource? (h : u.resource? n = some x) :
    ∃ t, u.table = some t ∧ x ∈ t.resources ∧ x.2.name = n := by
  obtain ⟨t, ht, hx⟩ := Option.bind_eq_some_iff.1 h
  exact ⟨t, ht, mem_of_find?_eq_some hx, by simpa using find?_some hx⟩

theorem mem_resourceNames_of_resource? (h : u.resource? n = some x) : n ∈ u.resourceNames := by
  obtain ⟨t, ht, hx, rfl⟩ := mem_of_resource? h
  simp only [resourceNames, ht, Option.map_some, Option.getD_some]
  exact mem_map_of_mem hx

end ShaderUnit

/-- A helper is called by its name, with what it takes besides its arguments, unless the index of a
loop stands for the call. -/
theorem Writer.fragment_helper {w : Writer} {n : String} {h : UnitFunction}
    (hh : w.unit.helper? n = some h) {loopIndex : Option String} {dot : Bool}
    {args : List (List Fragment)} {loc : Loc} {pieces : List Piece}
    (hc : w.fragment loopIndex dot (.call n args loc) = .ok pieces) :
    (∃ index, loopIndex = some index ∧ n = nonUniformCall ∧ pieces = [.word index]) ∨
    ∃ texts, w.arguments loopIndex args = .ok texts ∧
      pieces = [.word (callText n (texts ++ w.language.helperArgs w.unit w.role h))] := by
  unfold fragment at hc
  split at hc
  · next index hname =>
    cases hc
    exact .inl ⟨index, rfl, beq_iff_eq.1 hname, rfl⟩
  · simp only [bind_eq_ok, pure_eq_ok] at hc
    obtain ⟨texts, htexts, text, htext, rfl⟩ := hc
    simp only [call, hh, Except.ok.injEq] at htext
    exact .inr ⟨texts, htexts, by rw [← htext]⟩

namespace Msl
open Emit
variable {t : ResourceTable} {table params : List String} {options : EmitOptions} {u : ShaderUnit}
  {shader : Shader} {role : Role} {x : Frequency × TableResource} {f h : UnitFunction}

def writer (options : EmitOptions) (u : ShaderUnit) (role : Role) : Writer :=
  ⟨language (usesArgumentBuffers options u), u, role⟩

/-- The resources of a function as its unit's table has them. -/
def handed (u : ShaderUnit) (f : UnitFunction) : List (Frequency × TableResource) :=
  f.resources.filterMap u.resource?

def spelling (w : Writer) (x : Frequency × TableResource) : String :=
  w.language.resourceName w.role x.1 x.2

/-- The writer that spells one resource differently, where it is named and where it is handed on. -/
def respelled (w : Writer) (x : Frequency × TableResource) (text : String) : Writer :=
  w.naming (fun frequency r => if (frequency, r) = x then text else spelling w (frequency, r))
    fun h => (handed w.unit h).map fun y => if y = x then text else spelling w y

/-- A body spells a resource if its text depends on how that is spelled. -/
def Spells (w : Writer) (body : List Fragment) (x : Frequency × TableResource) : Prop :=
  ∃ text, (respelled w x text).body body ≠ w.body body

theorem mem_handed_of_spells (hu : u.Closed) (hf : f ∈ u.entry :: u.helpers)
    (h : Spells (writer options u role) f.function.body x) : x ∈ handed u f := by
  obtain ⟨text, htext⟩ := h
  by_contra hx
  refine htext (Writer.body_naming
    ⟨fun v hv frequency r hr => ?_, fun callee source loc k hmem hk => ?_⟩)
  · refine if_neg ?_
    rintro rfl
    have hname : Fragment.Names v.1 f.function.body := Fragment.names_of_mem_valuesList _ hv
    exact hx (mem_filterMap.2
      ⟨v.1, hu.names f hf v.1 (ShaderUnit.mem_resourceNames_of_resource? hr) hname, hr⟩)
  · obtain ⟨hhelper, rfl⟩ := (ShaderUnit.helper?_eq_some hu).1 hk
    refine map_congr_left fun y hy => if_neg ?_
    rintro rfl
    obtain ⟨n, hn, hr⟩ := mem_filterMap.1 hy
    have hcall : k.function.name ∈ f.function.calls := Function.mem_calls.2 ⟨source, loc, hmem⟩
    exact hx (mem_filterMap.2 ⟨n, hu.calls f hf k hhelper hcall hn, hr⟩)

/-- Where a helper is defined and called. -/
structure HelperScope (options : EmitOptions) (u : ShaderUnit) (lines : List String)
    (h : UnitFunction) (params body : List String) : Prop where
  written : (writer options u .helper).body h.function.body = .ok body
  defined : block (typeName h.function.returns ++ " " ++
    callText h.function.name (h.params.map helperParam ++ params)) body "\x7d" <:+: lines
  /-- The parameters after its own are for its resources, in order. -/
  takes : List.Forall₂ (fun x param => ∃ type, param = type ++ " " ++ x.2.name) (handed u h) params
  spelled : ∀ x, Spells (writer options u .helper) h.function.body x →
    x ∈ handed u h ∧ spelling (writer options u .helper) x = x.2.name
  /-- A call has arguments for the same resources, unless the index of a loop stands for it. -/
  called : ∀ role loopIndex dot args loc pieces,
    (writer options u role).fragment loopIndex dot (.call h.function.name args loc) = .ok pieces →
      (∃ index, loopIndex = some index ∧ h.function.name = Writer.nonUniformCall ∧
        pieces = [.word index]) ∨
      ∃ texts, (writer options u role).arguments loopIndex args = .ok texts ∧
        pieces = [.word (callText h.function.name
          (texts ++ (handed u h).map (spelling (writer options u role))))]

/-- A member of the argument buffer of a set, which the parameter of the set refers to. A constant
buffer is a pointer there. -/
def memberOf (x : Frequency × TableResource) : String :=
  match x.2.kind with
  | .constantBuffer _ => s!"(*srt_{x.1.name}.{x.2.name})"
  | _ => s!"srt_{x.1.name}.{x.2.name}"

/-- The entry point, whose first lines may declare memory of a group. -/
structure EntryScope (options : EmitOptions) (u : ShaderUnit)
    (lines params memory body : List String) : Prop where
  written : (writer options u .entry).body u.entry.function.body = .ok body
  declared : ∀ line ∈ memory, ∃ text : String, line = indented s!"threadgroup {text};"
  defined : ∃ result : String, block (s!"{stageKeyword u.stage} {result} " ++
    callText (stageKeyword u.stage ++ "Main") params) (memory ++ body) "\x7d" <:+ lines
  /-- A resource is a parameter, or a member of the struct that is the parameter of its set, and it
  is spelled as that. -/
  spelled : ∀ x, Spells (writer options u .entry) u.entry.function.body x →
    if usesArgumentBuffers options u then
      (∃ (members : List String) (type : String),
        structLines s!"Srt_{x.1.name}" members <:+: lines ∧
        s!"{type} {x.2.name} [[id({x.2.index})]];" ∈ members) ∧
      s!"constant Srt_{x.1.name}& srt_{x.1.name} [[buffer({x.1.index})]]" ∈ params ∧
      spelling (writer options u .entry) x = memberOf x
    else
      ∃ type slot : String, s!"{type} {x.2.name} [[{slot}]]" ∈ params ∧
        spelling (writer options u .entry) x = x.2.name

theorem spelling_helper : spelling (writer options u .helper) x = x.2.name := by
  simp [spelling, writer, language, resourceName]

theorem spelling_entry (h : usesArgumentBuffers options u = true) :
    spelling (writer options u .entry) x = memberOf x := by
  simp only [spelling, writer, language, resourceName, memberOf, h]
  cases x.2.kind <;> rfl

theorem helperLines_eq_ok {lines : List String}
    (hl : helperLines (writer options u .helper).language u h = .ok lines) :
    ∃ params body, (writer options u .helper).body h.function.body = .ok body ∧
      lines = "" :: block (typeName h.function.returns ++ " " ++
        callText h.function.name (h.params.map helperParam ++ params)) body "\x7d" ∧
      List.Forall₂ (fun x param => ∃ type, param = type ++ " " ++ x.2.name)
        (handed u h) params := by
  simp only [helperLines, functionLines, bind_eq_ok, pure_eq_ok] at hl
  obtain ⟨params, hparams, body, hbody, rfl⟩ := hl
  refine ⟨params, body, hbody, rfl, (forall₂_of_mapM hparams).imp fun x param hparam => ?_⟩
  simp only [bind_eq_ok, pure_eq_ok] at hparam
  obtain ⟨type, -, rfl⟩ := hparam
  exact ⟨type, rfl⟩

theorem directParam_mem (ht : tableParts false u t = .ok (table, params)) {b : Binding}
    (hb : b ∈ directBindings .none t.resources) (hname : b.resource.name ∈ u.entry.resources) :
    ∃ type : String, s!"{type} {b.resource.name} [[{b.slot.text}]]" ∈ params := by
  simp only [tableParts, Bool.false_eq_true, if_false, bind_eq_ok, pure_eq_ok, Prod.mk.injEq] at ht
  obtain ⟨_, -, found, hfound, -, rfl⟩ := ht
  obtain ⟨param, hmem, hparam⟩ := exists_of_mapM hfound hb
  simp only [directParam?, if_pos hname, bind_eq_ok, pure_eq_ok] at hparam
  obtain ⟨type, -, rfl⟩ := hparam
  exact ⟨type, mem_filterMap.2 ⟨_, hmem, rfl⟩⟩

theorem bufferMember_mem (ht : tableParts true u t = .ok (table, params)) (hx : x ∈ t.resources) :
    (∃ (members : List String) (type : String), structLines s!"Srt_{x.1.name}" members <:+: table ∧
      s!"{type} {x.2.name} [[id({x.2.index})]];" ∈ members) ∧
    s!"constant Srt_{x.1.name}& srt_{x.1.name} [[buffer({x.1.index})]]" ∈ params := by
  simp only [tableParts, if_true, bind_eq_ok, pure_eq_ok, Prod.mk.injEq] at ht
  obtain ⟨_, -, structs, hstructs, rfl, rfl⟩ := ht
  obtain ⟨s, hs, hfrequency, hr⟩ := ResourceTable.mem_resources.1 hx
  rw [← hfrequency]
  refine ⟨?_, mem_map_of_mem hs⟩
  obtain ⟨lines, hlines, hbuffer⟩ := exists_of_mapM hstructs hs
  simp only [bufferLines, bind_eq_ok, pure_eq_ok] at hbuffer
  obtain ⟨members, hmembers, rfl⟩ := hbuffer
  obtain ⟨member, hmember, hmem⟩ := exists_of_mapM hmembers hr
  simp only [bind_eq_ok, pure_eq_ok] at hmem
  obtain ⟨type, -, rfl⟩ := hmem
  exact ⟨members, type, infix_of_mem_flatten hlines, hmember⟩

theorem globalLine_eq_ok {l : Language} {g : Global} {line : GlobalLine}
    (h : globalLine l u g = .ok line) :
    ∃ text : String, globalText l u (splitQualifiers g.body).2 = .ok text ∧
      (line = .threadgroup s!"threadgroup {text};" ∨ line = .constant s!"constant {text};") := by
  simp only [globalLine, bind_eq_ok] at h
  obtain ⟨text, htext, h⟩ := h
  refine ⟨text, htext, ?_⟩
  split at h
  · split at h
    · cases h
    · split at h
      · cases h
      · cases h
        exact .inl rfl
  · split at h
    · cases h
      exact .inr rfl
    · cases h

structure Parts (options : EmitOptions) (u : ShaderUnit) where
  table : List String
  params : List String
  globals : List GlobalLine
  helpers : List (List String)
  body : List String
  table_eq : ∀ t, u.table = some t →
    tableParts (usesArgumentBuffers options u) u t = .ok (table, params)
  globals_eq : u.globals.mapM (globalLine (writer options u .helper).language u) = .ok globals
  helpers_eq : u.helpers.mapM (helperLines (writer options u .helper).language u) = .ok helpers
  body_eq : (writer options u .entry).body u.entry.function.body = .ok body

namespace Parts

def memory (parts : Parts options u) : List String :=
  (parts.globals.filterMap fun
    | .constant _ => none
    | .threadgroup text => some text).map indented

def entryLines (parts : Parts options u) : List String :=
  let result := if u.interface.outputs.isEmpty then "void" else "_StageOut"
  block (s!"{stageKeyword u.stage} {result} " ++
    callText (stageKeyword u.stage ++ "Main") (entryParams u ++ parts.params))
    (parts.memory ++ parts.body) "\x7d"

def opening (_ : Parts options u) : List String :=
  [headComment u, "#include <metal_stdlib>", "using namespace metal;"] ++
    u.structs.flatMap (structDefLines (writer options u .helper).language)

def constants (parts : Parts options u) : List String :=
  parts.globals.filterMap fun
    | .constant text => some text
    | .threadgroup _ => none

def middle (parts : Parts options u) : List String :=
  stageInLines u ++ stageOutLines u ++ paragraph parts.constants

def lines (parts : Parts options u) : List String :=
  parts.opening ++
    (parts.table ++ (parts.middle ++ (parts.helpers.flatten ++ "" :: parts.entryLines)))

theorem table_within (parts : Parts options u) : parts.table <:+: parts.lines :=
  ⟨parts.opening, _, append_assoc _ _ _⟩

theorem helpers_within (parts : Parts options u) : parts.helpers.flatten <:+: parts.lines :=
  ⟨parts.opening ++ (parts.table ++ parts.middle), "" :: parts.entryLines, by
    simp only [lines, append_assoc]⟩

theorem entry_suffix (parts : Parts options u) : parts.entryLines <:+ parts.lines :=
  ⟨parts.opening ++ (parts.table ++ (parts.middle ++ (parts.helpers.flatten ++ [""]))), by
    simp only [lines, append_assoc, singleton_append]⟩

theorem mem_memory (parts : Parts options u) {line : String} (h : line ∈ parts.memory) :
    ∃ text : String, line = indented s!"threadgroup {text};" := by
  obtain ⟨text, htext, rfl⟩ := mem_map.1 h
  obtain ⟨g, hg, hsome⟩ := mem_filterMap.1 htext
  cases g with
  | constant => simp at hsome
  | threadgroup text' =>
    obtain rfl := Option.some.inj hsome
    have hmem : Except.ok (.threadgroup text') ∈
        u.globals.map (globalLine (writer options u .helper).language u) :=
      mapM_eq_ok.1 parts.globals_eq ▸ mem_map_of_mem hg
    obtain ⟨global, -, hglobal⟩ := mem_map.1 hmem
    obtain ⟨inner, -, hline | hline⟩ := globalLine_eq_ok hglobal
    · cases hline
      exact ⟨inner, rfl⟩
    · cases hline

end Parts

theorem exists_parts (hg : generate options u = .ok shader) :
    ∃ parts : Parts options u, shader.source = ofLines parts.lines := by
  cases ht : u.table with
  | _ =>
    simp only [generate, ht, bind_eq_ok, pure_eq_ok] at hg
    obtain ⟨⟨table, params⟩, htable, globals, hglobals, helpers, hhelpers, body, hbody, rfl⟩ := hg
    refine ⟨⟨table, params, globals, helpers, body, by simp [ht, htable], hglobals,
      hhelpers, hbody⟩, ?_⟩
    simp only [Parts.lines, Parts.opening, Parts.middle, Parts.entryLines, Parts.memory, writer,
      append_assoc, singleton_append]
    rfl

variable {p : Program} {tables : ResourceTables} {signatures : RootSignatures} {o : Output}
  {target : Target}

/-- In a generated shader every resource that the body of a helper spells is one of the parameters
that the helper has for its resources, every one that the body of the entry point spells is a
parameter or a member of the argument buffer of its set, spelled as such, and calls of a helper hand
on the resources of its parameters in their order. -/
theorem generate_in_scope (hu : ShaderUnit.ofOutput p tables signatures o target = .ok u)
    (hg : generate options u = .ok shader) :
    ∃ lines, shader.source = ofLines lines ∧
      (∀ h ∈ u.helpers, ∃ params body, HelperScope options u lines h params body) ∧
      ∃ params memory body, EntryScope options u lines params memory body := by
  have hclosed := ShaderUnit.closed_of_ofOutput hu
  obtain ⟨parts, hsource⟩ := exists_parts hg
  refine ⟨parts.lines, hsource, fun h hh => ?_, entryParams u ++ parts.params, parts.memory,
    parts.body, parts.body_eq, fun _ => parts.mem_memory, ⟨_, parts.entry_suffix⟩, fun x hx => ?_⟩
  · obtain ⟨lines, hlines, hhelper⟩ := exists_of_mapM parts.helpers_eq hh
    obtain ⟨params, body, hbody, rfl, hparams⟩ := helperLines_eq_ok hhelper
    have hfound : u.helper? h.function.name = some h :=
      (ShaderUnit.helper?_eq_some hclosed).2 ⟨hh, rfl⟩
    refine ⟨params, body, hbody, ?_, hparams, fun x hx => ?_,
      fun role _ _ _ _ _ => Writer.fragment_helper (w := writer options u role) hfound⟩
    · exact ((suffix_cons _ _).isInfix.trans (infix_of_mem_flatten hlines)).trans
        parts.helpers_within
    · exact ⟨mem_handed_of_spells hclosed (mem_cons_of_mem _ hh) hx, spelling_helper⟩
  · obtain ⟨n, hn, hr⟩ := mem_filterMap.1
      (mem_handed_of_spells hclosed mem_cons_self hx)
    obtain ⟨t, ht, hmem, rfl⟩ := ShaderUnit.mem_of_resource? hr
    have htable := parts.table_eq t ht
    split
    · next hbuffers =>
      rw [hbuffers] at htable
      obtain ⟨⟨members, type, hstruct, hmember⟩, hparam⟩ := bufferMember_mem htable hmem
      exact ⟨⟨members, type, hstruct.trans parts.table_within, hmember⟩,
        mem_append_right _ hparam, spelling_entry hbuffers⟩
    · next hbuffers =>
      rw [Bool.not_eq_true] at hbuffers
      rw [hbuffers] at htable
      have hall : (directBindings .none t.resources).map (fun b => (b.frequency, b.resource)) =
          t.resources := map_directBindings
      obtain ⟨b, hb, rfl⟩ := mem_map.1 (hall ▸ hmem)
      obtain ⟨type, hparam⟩ := directParam_mem htable hb hn
      refine ⟨type, _, mem_append_right _ hparam, ?_⟩
      simp [spelling, writer, language, resourceName, hbuffers]

/-- The unit of `tintProgram`, in which `smooth` reaches `tint` through `shade`. -/
def tintUnit : ShaderUnit :=
  { name := "tint", stage := .compute, features := .empty, target := .metal, structs := [],
    globals := [], helpers := [⟨ShaderUnit.tint "smooth", [], ["smooth"]⟩,
      ⟨ShaderUnit.shade, [], ["smooth"]⟩],
    entry := ⟨ShaderUnit.shadeEntry.function, [], ["smooth", "camera"]⟩,
    interface := ⟨.compute, none, [], [], []⟩, table := some Program.litTable,
    threads := some ⟨8, 8, 1⟩, compared := [] }

theorem ofOutput_tintUnit : ShaderUnit.ofOutput (ShaderUnit.tintProgram "smooth")
    ShaderUnit.tintTables .standard ShaderUnit.tintOutput .metal = .ok tintUnit := by
  have hcompared : Text.nameSet [] = [] := by simp [Text.nameSet, Text.sortNames, Text.distinct]
  have hunit : ShaderUnit.ofOutput (ShaderUnit.tintProgram "smooth") ShaderUnit.tintTables .standard
    ShaderUnit.tintOutput .metal = .ok { tintUnit with compared := Text.nameSet [] } := by rfl
  rwa [hcompared] at hunit

def smooth : Frequency × TableResource := (.persistent, ⟨"smooth", .sampler false, 4, 1⟩)

theorem generate_in_scope_tintUnit : ∃ shader lines,
    generate ⟨true, true, none⟩ tintUnit = .ok shader ∧ shader.source = ofLines lines ∧
      Spells (writer ⟨true, true, none⟩ tintUnit .helper) (ShaderUnit.shade).body smooth ∧
      Spells (writer ⟨true, true, none⟩ tintUnit .entry) tintUnit.entry.function.body smooth ∧
      (∀ h ∈ tintUnit.helpers, ∃ params body,
        HelperScope ⟨true, true, none⟩ tintUnit lines h params body) ∧
      ∃ params memory body, EntryScope ⟨true, true, none⟩ tintUnit lines params memory body := by
  obtain ⟨shader, hshader⟩ : ∃ shader, generate ⟨true, true, none⟩ tintUnit = .ok shader :=
    ⟨_, rfl⟩
  obtain ⟨lines, hlines, hhelpers, hentry⟩ := generate_in_scope ofOutput_tintUnit hshader
  have hhelper : Spells (writer ⟨true, true, none⟩ tintUnit .helper) (ShaderUnit.shade).body
      smooth := ⟨"s", by decide +kernel⟩
  have hbody : Spells (writer ⟨true, true, none⟩ tintUnit .entry) tintUnit.entry.function.body
      smooth := ⟨"s", by decide +kernel⟩
  exact ⟨shader, lines, hshader, hlines, hhelper, hbody, hhelpers, hentry⟩

end Msl
end ShaderDialect
