import ShaderDialect.Proofs.Emit.Respelling
import ShaderDialect.Proofs.Msl.Scope

/-! Declarations and uses of names in generated shaders. Parameters and globals are declared by the
spelling that bodies have for them, functions and structs by their own names; so a struct with a
reserved name is declared and used by different ones. -/
namespace ShaderDialect

open List Success Emit

def Opens (before : String) : Prop := before.toList.getLast?.all fun c => !Scan.isWordRest c

def Ends (after : String) : Prop := after.toList.head?.all fun c => !Scan.isWordRest c

instance (before : String) : Decidable (Opens before) := inferInstanceAs (Decidable (_ = _))

instance (after : String) : Decidable (Ends after) := inferInstanceAs (Decidable (_ = _))

/-- A name stands in a text as a word of its own. -/
def Stands (x text : String) : Prop :=
  ∃ before after : String, text = before ++ x ++ after ∧ Opens before ∧ Ends after

theorem opens_append (s : String) {t : String} (hne : t.toList ≠ []) (h : Opens t) :
    Opens (s ++ t) := by
  rw [Opens, String.toList_append, getLast?_append_of_ne_nil _ hne]
  exact h

theorem ends_append {s : String} (hne : s.toList ≠ []) (h : Ends s) (t : String) :
    Ends (s ++ t) := by
  rw [Ends, String.toList_append, head?_append_of_ne_nil _ hne]
  exact h

theorem ends_arraySuffix (length : Option Nat) : Ends (arraySuffix length) := by
  cases length with
  | none => decide
  | some n =>
    have hends : Ends ("[" ++ (toString n ++ "]")) := ends_append (by decide) (by decide) _
    rwa [← String.append_assoc] at hends

theorem stands_of_space (before x : String) {after : String} (h : Ends after) :
    Stands x (before ++ " " ++ x ++ after) :=
  ⟨before ++ " ", after, rfl, opens_append before (by decide) (by decide), h⟩

def Target.helperParam : Target → Parameter → String
  | direct3d12 => Hlsl.helperParam
  | vulkan => Glsl.helperParam
  | metal => Msl.helperParam

theorem Target.stands_helperParam (target : Target) (p : Parameter) :
    Stands (target.respell p.name) (target.helperParam p) := by
  cases target with
  | direct3d12 => exact stands_of_space _ _ (ends_arraySuffix _)
  | vulkan => exact stands_of_space _ _ (ends_arraySuffix _)
  | metal =>
    simp only [helperParam, Msl.helperParam]
    split
    · split
      · next n _ =>
        refine ⟨"thread " ++ Msl.typeName p.type ++ " (&", ")[" ++ (toString n ++ "]"), ?_, ?_, ?_⟩
        · simp only [String.append_assoc]
          rfl
        · exact opens_append _ (by decide) (by decide)
        · exact ends_append (by decide) (by decide) _
      · refine ⟨"thread " ++ Msl.typeName p.type ++ "& ", "", ?_, ?_, by decide⟩
        · simp only [String.append_assoc, String.append_empty]
          rfl
        · exact opens_append _ (by decide) (by decide)
    · exact stands_of_space _ _ (ends_arraySuffix _)

namespace Interface
variable {site : Site} {structs : List StructDef} {i i' : Interface} {x : String}

/-- A parameter takes the stage inputs or a system value. -/
def Takes (i : Interface) (x : String) : Prop :=
  (∃ struct, i.structParam = some (x, struct)) ∨
    ∃ p ∈ i.systemValues, p.systemValue.isSome ∧ p.name = x

variable {p : Param}

theorem takes_addParam (h : addParam site structs i p = .ok i') (hx : i.Takes x ∨ x = p.name) :
    i'.Takes x := by
  simp only [addParam] at h
  split at h
  · cases h
  split at h
  · simp only [bind_eq_ok, pure_eq_ok] at h
    obtain ⟨⟨⟩, -, ⟨⟩, -, rfl⟩ := h
    rcases hx with (hstruct | ⟨q, hq, hsome⟩) | rfl
    · exact .inl hstruct
    · exact .inr ⟨q, mem_append_left _ hq, hsome⟩
    · exact .inr ⟨_, mem_append_right _ mem_cons_self, rfl, rfl⟩
  · next name _ _ =>
    split at h
    · cases h
    · next hnone =>
      rw [Option.not_isSome_iff_eq_none] at hnone
      obtain ⟨inputs, -, hi⟩ := bind_eq_ok.1 h
      cases hi
      rcases hx with (⟨struct, hstruct⟩ | hsystem) | rfl
      · rw [hnone] at hstruct
        cases hstruct
      · exact .inr hsystem
      · exact .inl ⟨name, rfl⟩
  · cases h

theorem takes_ofFunction {f : Function} (h : ofFunction site structs f = .ok i)
    (hp : p ∈ f.params) : i.Takes p.name := by
  simp only [ofFunction, bind_eq_ok] at h
  obtain ⟨i', hi', outputs, -, h⟩ := h
  have htakes := foldlM_induction (fun done i => ∀ p ∈ done, i.Takes p.name) hi' (by simp) (by
    intro done q i i' _ hdone hstep p hp
    rw [mem_append, mem_singleton] at hp
    exact takes_addParam hstep (hp.imp (hdone p) (congrArg Param.name)))
  split at h
  · cases h
  · cases h
    exact htakes p hp

end Interface

namespace ShaderUnit
variable {l : Language} {params lines : List String} {u : ShaderUnit} {options : EmitOptions}
  {x : String} {p : Program} {tables : ResourceTables} {signatures : RootSignatures} {o : Output}
  {target : Target} {shader : Shader}

/-- The interface has a place for each parameter of the entry point. -/
def TakesParams (u : ShaderUnit) : Prop := ∀ q ∈ u.entry.params, u.interface.Takes q.name

theorem takesParams_of_ofOutput (h : ofOutput p tables signatures o target = .ok u) :
    u.TakesParams := by
  simp only [ofOutput, bind_eq_ok, pure_eq_ok] at h
  obtain ⟨s, -, e, -, ⟨⟩, -, own, -, interface, hinterface, ⟨⟩, -, found, -, ⟨⟩, -, ⟨⟩,
    -, helpers, -, ⟨⟩, -, rfl⟩ := h
  intro q hq
  obtain ⟨param, hparam, rfl⟩ := mem_map.1 hq
  exact Interface.takes_ofFunction hinterface hparam

/-- The texts of the parameters that an entry point has for those of the source. -/
def entryParams (u : ShaderUnit) : List String :=
  match u.target with
  | .direct3d12 => u.entry.params.map Hlsl.entryParam
  | .vulkan => []
  | .metal => Msl.entryParams u

theorem stands_entryParam_hlsl (q : Parameter) : Stands q.name (Hlsl.entryParam q) := by
  unfold Hlsl.entryParam
  split
  · next v _ =>
    have hends : Ends (" : " ++ v.semantic) := ends_append (by decide) (by decide) _
    have hstands := stands_of_space (Hlsl.typeName q.type) q.name hends
    rwa [← String.append_assoc] at hstands
  · have hstands := stands_of_space (Hlsl.typeName q.type) q.name (by decide : Ends "")
    rwa [String.append_empty] at hstands

theorem stands_initMain_glsl (h : u.interface.Takes x) :
    ∃ piece ∈ Glsl.initMain u, Stands (Glsl.respell x) piece.text := by
  unfold Glsl.initMain
  rcases h with ⟨struct, hstruct⟩ | ⟨q, hq, hsome, rfl⟩
  · rw [hstruct]
    exact ⟨_, mem_append_left _ mem_cons_self,
      stands_of_space struct (Glsl.respell x) (by decide : Ends ";")⟩
  · obtain ⟨v, hv⟩ := Option.isSome_iff_exists.1 hsome
    refine ⟨_, mem_append_right _
      (mem_filterMap.2 ⟨q, hq, by rw [Glsl.systemLine?, hv]; rfl⟩), ?_⟩
    refine ⟨Glsl.typeName q.type ++ " ",
      " = " ++ (Glsl.typeName q.type ++ "(" ++ Glsl.builtinInput v ++ ");"), ?_, ?_, ?_⟩
    · simp only [Piece.text, String.append_assoc]
      rfl
    · exact opens_append _ (by decide) (by decide)
    · exact ends_append (by decide) (by decide) _

theorem stands_entry_msl (h : u.interface.Takes x) :
    ∃ text ∈ Msl.entryParams u ++ (Msl.initMain u).map Piece.text, Stands (Msl.respell x) text := by
  rcases h with ⟨struct, hstruct⟩ | ⟨q, hq, hsome, rfl⟩
  · have hmem : Piece.line (struct ++ " " ++ Msl.respell x ++ ";") ∈ Msl.initMain u := by
      rw [Msl.initMain, hstruct]
      exact mem_cons_self
    exact ⟨_, mem_append_right _ (mem_map_of_mem hmem),
      stands_of_space struct (Msl.respell x) (by decide : Ends ";")⟩
  · obtain ⟨v, hv⟩ := Option.isSome_iff_exists.1 hsome
    refine ⟨_, mem_append_left _ (mem_append_right _
      (mem_filterMap.2 ⟨q, hq, by rw [Msl.systemParam?, hv]; rfl⟩)), ?_⟩
    refine ⟨Msl.typeName q.type ++ " ", " [[" ++ (Msl.systemAttribute v ++ "]]"), ?_, ?_, ?_⟩
    · simp only [String.append_assoc]
      rfl
    · exact opens_append _ (by decide) (by decide)
    · exact ends_append (by decide) (by decide) _

/-- Each parameter of the entry point is declared by its spelling, as a parameter or in what stands
for `INIT_MAIN`. -/
theorem stands_entry (h : u.TakesParams) {q : Parameter} (hq : q ∈ u.entry.params) :
    ∃ text ∈ u.entryParams ++ ((u.language options).initMain u).map Piece.text,
      Stands (u.target.respell q.name) text := by
  unfold entryParams language
  cases u.target with
  | direct3d12 => exact ⟨_, mem_append_left _ (mem_map_of_mem hq), stands_entryParam_hlsl q⟩
  | vulkan =>
    obtain ⟨piece, hpiece, hstands⟩ := stands_initMain_glsl (h q hq)
    exact ⟨piece.text, mem_append_right _ (mem_map_of_mem hpiece), hstands⟩
  | metal => exact stands_entry_msl (h q hq)

/-- What a target writes through the writer of a global. -/
def declaredPart (u : ShaderUnit) (g : Global) : List Fragment :=
  match u.target with
  | .direct3d12 => g.body
  | _ => (splitQualifiers g.body).2

/-- The declarations of a unit in the lines of a shader. -/
structure Declares (u : ShaderUnit) (options : EmitOptions) (lines : List String) : Prop where
  structs : ∀ d ∈ u.structs, s!"struct {d.name}" ∈ lines
  globals : ∀ g ∈ u.globals, ∃ front text : String,
    (u.writer options .helper).expression none (u.declaredPart g) = .ok text ∧
      front ++ text ++ ";" ∈ lines
  helpers : ∀ h ∈ u.helpers, ∃ params body,
    (u.writer options .helper).body h.function.body = .ok body ∧
      block ((u.language options).typeName h.function.returns ++ " " ++
      callText h.function.name params)
        body "\x7d" <:+: lines ∧
      ∀ q ∈ h.params, ∃ text ∈ params, Stands (u.target.respell q.name) text
  entry : ∃ head params memory body,
    (u.writer options .entry).body u.entry.function.body = .ok body ∧
    (∃ front name back, head = front ++ callText name params ++ back) ∧
      block head (memory ++ body) "\x7d" <:+ lines ∧
      ∀ q ∈ u.entry.params, ∃ text ∈ params ++ ((u.language options).initMain u).map Piece.text,
        Stands (u.target.respell q.name) text

/-- Where the parts of a shader are. -/
structure Arranged (lines structs globals functions entry : List String) : Prop where
  structs : structs ⊆ lines
  globals : paragraph globals ⊆ lines
  functions : functions <:+: lines
  entry : entry <:+ lines

theorem subset_paragraph (lines : List String) : lines ⊆ paragraph lines := by
  intro line hline
  unfold paragraph
  split
  · simp_all
  · exact mem_cons_of_mem _ hline

theorem infix_of_functionLines {h : UnitFunction}
    (hlines : functionLines l u h params = .ok lines) :
    ∃ body, Writer.body ⟨l, u, .helper⟩ h.function.body = .ok body ∧
      block (l.typeName h.function.returns ++ " " ++ callText h.function.name params)
        body "\x7d" <:+: lines := by
  simp only [functionLines, bind_eq_ok, pure_eq_ok] at hlines
  obtain ⟨body, hbody, rfl⟩ := hlines
  exact ⟨body, hbody, (suffix_cons _ _).isInfix⟩

theorem struct_mem_structLines (name : String) (fields : List String) :
    s!"struct {name}" ∈ structLines name fields :=
  mem_cons_of_mem _ mem_cons_self

/-- What is left to show of the declarations of a unit, once its parts are in place. -/
theorem Arranged.declares {body : List String} {head : String} (f : StructDef → List String)
    (globals : List String) (helpers : List (List String)) (memory : List String)
    (h : Arranged lines (u.structs.flatMap f) globals helpers.flatten
      (block head (memory ++ body) "\x7d"))
    (hhead : ∃ front name back, head = front ++ callText name params ++ back)
    (hstructs : ∀ d, s!"struct {d.name}" ∈ f d) (hglobals : ∀ g ∈ u.globals, ∃ front text : String,
      (u.writer options .helper).expression none (u.declaredPart g) = .ok text ∧
        front ++ text ++ ";" ∈ globals ++ memory)
    (hhelpers : ∀ k ∈ u.helpers, ∃ resources, ∃ text ∈ helpers,
      functionLines (u.language options) u k (k.params.map u.target.helperParam ++ resources) =
        .ok text)
    (hbody : entryBody (u.language options) u = .ok body) (hparams : u.entryParams ⊆ params)
    (htakes : u.TakesParams) : u.Declares options lines := by
  refine ⟨fun d hd => ?_, fun g hg => ?_, fun k hk => ?_, ?_⟩
  · exact h.structs (mem_flatMap.2 ⟨d, hd, hstructs d⟩)
  · obtain ⟨front, text, htext, hmem⟩ := hglobals g hg
    refine ⟨front, text, htext, ?_⟩
    rcases mem_append.1 hmem with hmem | hmem
    · exact h.globals (subset_paragraph globals hmem)
    · exact h.entry.subset (by simp [block, hmem])
  · obtain ⟨resources, text, htext, hlines⟩ := hhelpers k hk
    obtain ⟨body, hbody, hwithin⟩ := infix_of_functionLines hlines
    refine ⟨_, body, hbody, (hwithin.trans (infix_of_mem_flatten htext)).trans h.functions,
      fun q hq => ?_⟩
    exact ⟨_, mem_append_left _ (mem_map_of_mem hq), u.target.stands_helperParam q⟩
  · refine ⟨head, params, memory, body, hbody, hhead, h.entry, fun q hq => ?_⟩
    obtain ⟨text, htext, hstands⟩ := stands_entry htakes hq
    rw [mem_append] at htext
    exact ⟨text, mem_append.2 (htext.imp_left (hparams ·)), hstands⟩

theorem helpers_of_mapM {helpers : List (List String)} (hl : u.language options = l)
    (h : u.helpers.mapM (fun k => functionLines l u k (k.params.map u.target.helperParam)) =
      .ok helpers) {k : UnitFunction} (hk : k ∈ u.helpers) :
    ∃ resources, ∃ text ∈ helpers,
      functionLines (u.language options) u k (k.params.map u.target.helperParam ++ resources) =
        .ok text := by
  obtain ⟨text, hmem, htext⟩ := exists_of_mapM h hk
  refine ⟨[], text, hmem, ?_⟩
  rwa [hl, append_nil]

theorem declares_hlsl (htarget : u.target = .direct3d12) (hg : Hlsl.generate options u = .ok shader)
    (htakes : u.TakesParams) :
    ∃ lines, shader.source = ofLines lines ∧ u.Declares options lines := by
  have hlanguage : u.language options = Hlsl.language := by simp only [language, htarget]
  cases htable : u.table with
  | _ =>
    simp only [Hlsl.generate, htable, bind_eq_ok, pure_eq_ok] at hg
    obtain ⟨table, -, globals, hglobals, helpers, hhelpers, body, hbody, rfl⟩ := hg
    rw [← hlanguage] at hbody
    refine ⟨_, rfl,
      Arranged.declares (fun d => structLines d.name (d.fields.map Hlsl.fieldText)) globals
      helpers [] ⟨?_, ?_, ?_, suffix_append _ _⟩ ⟨_, _, _, rfl⟩ ?_ ?_ ?_ hbody ?_ htakes⟩
    · exact fun line hline => by simp [hline]
    · exact fun line hline => by simp [hline]
    · exact (((suffix_append _ _).isInfix.trans (prefix_append _ _).isInfix).trans
        (prefix_append _ _).isInfix).trans (prefix_append _ _).isInfix
    · exact fun d => struct_mem_structLines _ _
    · intro g hg
      obtain ⟨line, hline, htext⟩ := exists_of_mapM hglobals hg
      simp only [bind_eq_ok, pure_eq_ok] at htext
      obtain ⟨text, htext, rfl⟩ := htext
      refine ⟨"", text, ?_, ?_⟩
      · simp only [writer, hlanguage, declaredPart, htarget]
        exact htext
      · rwa [append_nil, String.empty_append]
    · exact fun k => helpers_of_mapM hlanguage (by rw [htarget]; exact hhelpers)
    · simp only [entryParams, htarget]
      exact List.Subset.refl _

theorem declares_glsl (htarget : u.target = .vulkan) (hg : Glsl.generate options u = .ok shader)
    (htakes : u.TakesParams) :
    ∃ lines, shader.source = ofLines lines ∧ u.Declares options lines := by
  have hlanguage : u.language options = Glsl.language options.descriptorIndexing := by
    simp only [language, htarget]
  have hhead : "void main()" = "void " ++ callText "main" [] ++ "" := by decide
  cases htable : u.table with
  | _ =>
    simp only [Glsl.generate, htable, bind_eq_ok, pure_eq_ok] at hg
    obtain ⟨table, -, globals, hglobals, helpers, hhelpers, body, hbody, rfl⟩ := hg
    rw [← hlanguage] at hbody
    refine ⟨_, rfl,
      Arranged.declares (structDefLines (Glsl.language options.descriptorIndexing)) globals
      helpers [] ⟨?_, ?_, ?_, suffix_append _ _⟩ ⟨_, _, _, hhead⟩ ?_ ?_ ?_ hbody ?_ htakes⟩
    · exact fun line hline => by simp [hline]
    · exact fun line hline => by simp [hline]
    · exact ((suffix_append _ _).isInfix.trans (prefix_append _ _).isInfix).trans
        (prefix_append _ _).isInfix
    · exact fun d => struct_mem_structLines _ _
    · intro g hg
      obtain ⟨line, hline, htext⟩ := exists_of_mapM hglobals hg
      simp only [Glsl.globalLine, bind_eq_ok, pure_eq_ok] at htext
      obtain ⟨text, htext, rfl⟩ := htext
      have hpart : (u.writer options .helper).expression none (u.declaredPart g) = .ok text := by
        simp only [writer, hlanguage, declaredPart, htarget]
        exact htext
      exact ⟨_, text, hpart, mem_append_left _ hline⟩
    · exact fun k => helpers_of_mapM hlanguage (by rw [htarget]; exact hhelpers)
    · simp only [entryParams, htarget]
      exact nil_subset _

theorem declares_msl (htarget : u.target = .metal) (hg : Msl.generate options u = .ok shader)
    (htakes : u.TakesParams) :
    ∃ lines, shader.source = ofLines lines ∧ u.Declares options lines := by
  obtain ⟨parts, hsource⟩ := Msl.exists_parts hg
  have hlanguage : u.language options = Msl.language (Msl.usesArgumentBuffers options u) := by
    simp only [language, htarget]
  have harranged : Arranged parts.lines
      (u.structs.flatMap (structDefLines (Msl.writer options u .helper).language)) parts.constants
      parts.helpers.flatten parts.entryLines := by
    refine ⟨fun line hline => ?_, fun line hline => ?_, parts.helpers_within, parts.entry_suffix⟩
    · exact mem_append_left _ (mem_append_right _ hline)
    · exact mem_append_right _ (mem_append_right _
        (mem_append_left _ (mem_append_right _ hline)))
  refine ⟨parts.lines, hsource, harranged.declares _ _ _ parts.memory
    ⟨_, _, _, String.append_empty.symm⟩ ?_ ?_ ?_ ?_ ?_ htakes⟩
  · exact fun d => struct_mem_structLines _ _
  · intro g hg
    obtain ⟨line, hline, hglobal⟩ := exists_of_mapM parts.globals_eq hg
    obtain ⟨text, htext, hcases⟩ := Msl.globalLine_eq_ok hglobal
    have hpart : (u.writer options .helper).expression none (u.declaredPart g) = .ok text := by
      simp only [writer, hlanguage, declaredPart, htarget]
      exact htext
    rcases hcases with rfl | rfl
    · have hmemory : indented s!"threadgroup {text};" ∈ parts.memory :=
        mem_map.2 ⟨_, mem_filterMap.2 ⟨_, hline, rfl⟩, rfl⟩
      have hline : indented s!"threadgroup {text};" = "    threadgroup " ++ text ++ ";" := by
        simp only [indented, ← String.append_assoc]
        rfl
      exact ⟨_, text, hpart, mem_append_right _ (hline ▸ hmemory)⟩
    · exact ⟨"constant ", text, hpart, mem_append_left _ (mem_filterMap.2 ⟨_, hline, rfl⟩)⟩
  · intro k hk
    obtain ⟨text, hmem, htext⟩ := exists_of_mapM parts.helpers_eq hk
    simp only [Msl.helperLines, bind_eq_ok] at htext
    obtain ⟨resources, -, htext⟩ := htext
    refine ⟨resources, text, hmem, ?_⟩
    rw [hlanguage, htarget]
    exact htext
  · rw [hlanguage]
    exact parts.body_eq
  · simp only [entryParams, htarget]
    exact subset_append_left _ _

/-- How the words of a unit are written where bodies use them. -/
structure Uses (u : ShaderUnit) (options : EmitOptions) : Prop where
  words : ∀ role loopIndex x loc, u.Own x →
    (u.writer options role).fragment loopIndex false (.token ⟨.word x, loc⟩) =
      .ok [.word (u.target.respell x)]
  /-- Two names are written alike exactly if they are one, or one is reserved and the other has an
  underscore more. -/
  alike : ∀ role role' loopIndex loopIndex' x y loc loc', u.Own x → u.Own y → IsName x → IsName y →
    ((u.writer options role).fragment loopIndex false (.token ⟨.word x, loc⟩) =
        (u.writer options role').fragment loopIndex' false (.token ⟨.word y, loc'⟩) ↔
      x = y ∨ u.target.Twins x y ∨ u.target.Twins y x)
  /-- A struct is written as it is declared exactly if its name is not respelled. -/
  structs : ∀ d ∈ u.structs, u.Own d.name → ∀ role loopIndex loc,
    ((u.writer options role).fragment loopIndex false (.token ⟨.word d.name, loc⟩) =
        .ok [.word d.name] ↔ ¬ u.target.Respells d.name)
  /-- A helper is called by its name, unless the index of a loop stands for the call. -/
  calls : ∀ h ∈ u.helpers, ∀ role loopIndex dot args loc pieces,
    (u.writer options role).fragment loopIndex dot (.call h.function.name args loc) = .ok pieces →
      (∃ index, loopIndex = some index ∧ h.function.name = Writer.nonUniformCall ∧
        pieces = [.word index]) ∨
      ∃ args, pieces = [.word (callText h.function.name args)]
  /-- The spellings of all names can be written in their place. -/
  spelled : u.Separate → ∀ role loopIndex fs,
    (u.writer options role).pieces loopIndex (Fragment.renameList u.spelled false fs) =
      (u.writer options role).pieces loopIndex fs

theorem fragment_word {role : Role} {loopIndex : Option String} {loc : Loc} (hx : u.Own x) :
    (u.writer options role).fragment loopIndex false (.token ⟨.word x, loc⟩) =
      .ok [.word (u.target.respell x)] := by
  rw [← word_of_own hx]
  rfl

theorem uses (hu : u.Closed) : u.Uses options where
  words _ _ _ _ hx := fragment_word hx
  alike role role' loopIndex loopIndex' x y loc loc' hx hy hnx hny := by
    rw [fragment_word hx, fragment_word hy, ← Target.respell_eq_iff hnx hny]
    simp
  structs d _ hown role loopIndex loc := by
    rw [fragment_word hown, ← Target.respell_eq_self_iff]
    simp
  calls h hh _ _ _ _ _ _ hc := by
    have hfound : u.helper? h.function.name = some h := (helper?_eq_some hu).2 ⟨hh, rfl⟩
    rcases Writer.fragment_helper hfound hc with hindex | ⟨texts, -, hpieces⟩
    · exact .inl hindex
    · exact .inr ⟨_, hpieces⟩
  spelled hseparate role := pieces_spelled hseparate options role

/-- In a generated shader, parameters and globals are declared by the spelling that bodies have for
them, and helpers by the name that they are called by. Structs are declared by their names, also
where bodies have another spelling for them; and a reserved name is not told apart from the one that
has an underscore more. -/
theorem generate_spellings (hu : ofOutput p tables signatures o target = .ok u) {shader : Shader}
    (hg : u.generate options = .ok shader) :
    (∃ lines, shader.source = ofLines lines ∧ u.Declares options lines) ∧ u.Uses options := by
  have htakes := takesParams_of_ofOutput hu
  refine ⟨?_, uses (closed_of_ofOutput hu)⟩
  unfold generate at hg
  split at hg
  · next htarget => exact declares_hlsl htarget hg htakes
  · next htarget => exact declares_glsl htarget hg htakes
  · next htarget => exact declares_msl htarget hg htakes

def sampleLoc : Loc := ⟨"sample.fsl", 1⟩

/-- A helper with a reserved name for its parameter. -/
def sampleHelper : Function :=
  ⟨"filter", .scalar .float, [⟨.scalar .float, "input", none, .in_, none, sampleLoc⟩],
    [.token ⟨.word "return", sampleLoc⟩, .token ⟨.word "input", sampleLoc⟩,
      .token ⟨.delim .semicolon, sampleLoc⟩], sampleLoc⟩

/-- An entry point with a variable that is a struct. -/
def sampleEntry : EntryPoint :=
  ⟨.compute, ⟨"CS_MAIN", .void, [], [.initMain sampleLoc, .token ⟨.word "sample", sampleLoc⟩,
    .token ⟨.word "input_", sampleLoc⟩, .token ⟨.delim .semicolon, sampleLoc⟩,
    .call "filter" [[.token ⟨.float "1.0", sampleLoc⟩]] sampleLoc,
    .token ⟨.delim .semicolon, sampleLoc⟩, .ret [] sampleLoc], sampleLoc⟩, none, none,
    some ⟨8, 8, 1⟩⟩

/-- A struct, a helper and a parameter with names that are reserved in GLSL. -/
def sampleProgram : Program :=
  ⟨[.struct ⟨"sample", [.field ⟨.vector .float 4, "color", none, none, sampleLoc⟩], sampleLoc⟩,
    .function sampleHelper, .entry sampleEntry]⟩

def sampleOutput : Output := ⟨"sample", .compute, .empty, none⟩

theorem generate_spellings_sampleProgram : ∃ u shader lines,
    ofOutput sampleProgram ⟨[]⟩ .standard sampleOutput .vulkan = .ok u ∧
      u.generate .standard = .ok shader ∧ shader.source = ofLines lines ∧
      u.Declares .standard lines ∧ u.Uses .standard ∧ "struct sample" ∈ lines ∧
      (∀ role loopIndex loc, (u.writer .standard role).fragment loopIndex false
        (.token ⟨.word "sample", loc⟩) = .ok [.word "sample_"]) ∧
      ∀ role role' loopIndex loc loc', (u.writer .standard role).fragment loopIndex false
          (.token ⟨.word "input", loc⟩) =
        (u.writer .standard role').fragment loopIndex false (.token ⟨.word "input_", loc'⟩) := by
  obtain ⟨u, shader, hu, hg, htarget, hstructs, htable⟩ : ∃ u shader,
      ofOutput sampleProgram ⟨[]⟩ .standard sampleOutput .vulkan = .ok u ∧
      u.generate .standard = .ok shader ∧ u.target = .vulkan ∧
      u.structs.map StructDef.name = ["sample"] ∧ u.table = none := ⟨_, _, rfl, rfl, rfl, rfl, rfl⟩
  obtain ⟨⟨lines, hsource, hdeclares⟩, huses⟩ := generate_spellings hu hg
  have hown : ∀ x, ValueType.builtin? x = none → u.Own x :=
    fun x hx => ⟨by simp [resource?, htable], hx⟩
  refine ⟨u, shader, lines, hu, hg, hsource, hdeclares, huses, ?_, fun role loopIndex loc => ?_,
    fun role role' loopIndex loc loc' => ?_⟩
  · have hmem : "sample" ∈ u.structs.map StructDef.name := hstructs ▸ mem_cons_self
    obtain ⟨d, hd, hname⟩ := mem_map.1 hmem
    have hline := hdeclares.structs d hd
    rwa [hname] at hline
  · rw [huses.words role loopIndex "sample" loc (hown _ (by decide +kernel)), htarget]
    rfl
  · have htwins : u.target.Twins "input" "input_" := by
      rw [htarget]
      exact ⟨by decide, by decide⟩
    exact (huses.alike role role' loopIndex loopIndex "input" "input_" loc loc'
      (hown _ (by decide +kernel)) (hown _ (by decide +kernel)) (by decide) (by decide)).2
      (.inr (.inl htwins))

end ShaderUnit
end ShaderDialect
