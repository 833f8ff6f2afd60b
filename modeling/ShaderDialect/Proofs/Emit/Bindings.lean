import ShaderDialect.Proofs.Msl.Scope

/-! The bindings of generated shaders. Each resource of a table is bound once, where the target puts
it; no two bindings have a place in common, and the texts of their places are those that stand in
the declarations of the shader. -/
namespace ShaderDialect

open Emit List Success Text

namespace Slot

variable {kind kind' : RegisterClass} {k k' : ArgumentClass} {a a' c c' : Nat}

theorem text_register (h : (register kind a c).text = (register kind' a' c').text) :
    register kind a c = register kind' a' c' := by
  have hparts : kind.letter.toList ++ (a.repr.toList ++ ',' :: (" space".toList ++ c.repr.toList)) =
      kind'.letter.toList ++ (a'.repr.toList ++ ',' :: (" space".toList ++ c'.repr.toList)) := by
    simpa [text, toString] using congrArg String.toList h
  obtain ⟨hletter, hrest⟩ := append_inj hparts (by cases kind <;> cases kind' <;> rfl)
  obtain ⟨rfl, hspace⟩ := repr_cut rfl hrest
  obtain rfl := eq_of_toList_repr (append_cancel_left hspace)
  cases kind <;> cases kind' <;> first | rfl | cases hletter

theorem text_descriptor (h : (descriptor a c).text = (descriptor a' c').text) :
    descriptor a c = descriptor a' c' := by
  have hparts : a.repr.toList ++ ',' :: (" binding = ".toList ++ c.repr.toList) =
      a'.repr.toList ++ ',' :: (" binding = ".toList ++ c'.repr.toList) := by
    simpa [text, toString] using congrArg String.toList h
  obtain ⟨rfl, hrest⟩ := repr_cut rfl hparts
  rw [eq_of_toList_repr (append_cancel_left hrest)]

theorem text_member (h : (member a c).text = (member a' c').text) : member a c = member a' c' := by
  have hparts : a.repr.toList ++ ')' :: (", id(".toList ++ (c.repr.toList ++ [')'])) =
      a'.repr.toList ++ ')' :: (", id(".toList ++ (c'.repr.toList ++ [')'])) := by
    simpa [text, toString] using congrArg String.toList h
  obtain ⟨rfl, hrest⟩ := repr_cut rfl hparts
  rw [(repr_cut rfl (append_cancel_left hrest)).1]

theorem text_argument (h : (argument k a).text = (argument k' a').text) :
    argument k a = argument k' a' := by
  have hparts : k.name.toList ++ '(' :: (a.repr.toList ++ [')']) =
      k'.name.toList ++ '(' :: (a'.repr.toList ++ [')']) := by
    simpa [text, toString] using congrArg String.toList h
  have hopen (k : ArgumentClass) : '(' ∉ k.name.toList := by cases k <;> decide
  obtain ⟨hname, hrest⟩ := cut_inj (hopen k) (hopen k') hparts
  rw [(repr_cut rfl hrest).1]
  cases k <;> cases k' <;> first | rfl | cases hname

end Slot

/-- A line declares a resource with a register. -/
def Hlsl.Declares (slot name line : String) : Prop :=
  let place := s!"register({slot})"
  (∃ type suffix : String, line = s!"{type} {name}{suffix} : {place};") ∨
    line = s!"cbuffer {name}_Block : {place}"

/-- A line declares a resource with a descriptor. -/
def Glsl.Declares (slot name line : String) : Prop :=
  (∃ format type suffix : String, line =
    s!"layout({slot}{format}) uniform {type} {name}{suffix};") ∨
    ∃ format storage : String, line = s!"layout({slot}, {format}) {storage} {name}_Block"

namespace Binding

/-- Where a target binds a resource. -/
def Stands (target : Target) (argumentBuffers : Bool) (b : Binding) : Prop :=
  match target with
  | .direct3d12 => b.slot = .register (.ofKind b.resource.kind) b.resource.index b.frequency.index
  | .vulkan => b.slot = .descriptor b.frequency.index b.resource.index
  | .metal =>
    if argumentBuffers then b.slot = .member b.frequency.index b.resource.index
    else ∃ n, b.slot = .argument (.ofKind b.resource.kind) n ∧
      n + b.resource.length ≤ Msl.ceiling (.ofKind b.resource.kind)

/-- The entry point of a Metal shader has a parameter. -/
def Takes (u : ShaderUnit) (lines : List String) (param : String) : Prop :=
  ∃ (result : String) (params : List String), s!"{Msl.stageKeyword u.stage} {result} " ++
    callText (Msl.stageKeyword u.stage ++ "Main") params ∈ lines ∧ param ∈ params

/-- The declaration of a resource has the text of its slot. The two parts of a member's text stand
at the parameter for the buffer and at the member, and of single arguments only those that the entry
point needs are declared. -/
def Declared (u : ShaderUnit) (argumentBuffers : Bool) (lines : List String) (b : Binding) : Prop :=
  let name := b.resource.name
  match u.target with
  | .direct3d12 => ∃ line ∈ lines, Hlsl.Declares b.slot.text name line
  | .vulkan => ∃ line ∈ lines, Glsl.Declares b.slot.text name line
  | .metal =>
    if argumentBuffers then
      ∃ (n i : Nat) (members : List String) (type : String),
        b.slot.text = s!"buffer({n}), id({i})" ∧
        Takes u lines s!"constant Srt_{b.frequency.name}& srt_{b.frequency.name} [[buffer({n})]]" ∧
        structLines s!"Srt_{b.frequency.name}" members <:+: lines ∧
        s!"{type} {name} [[id({i})]];" ∈ members
    else name ∈ u.entry.resources → ∃ type : String,
      Takes u lines s!"{type} {name} [[{b.slot.text}]]"

theorem slot_mem_places {b : Binding} (h : 1 ≤ b.resource.length) : b.slot ∈ b.places := by
  unfold places
  split
  all_goals
    next hslot =>
    rw [hslot]
    simp
    try omega

variable {target : Target} {argumentBuffers : Bool}

theorem slot_eq_of_text {b b' : Binding} (hb : b.Stands target argumentBuffers)
    (hb' : b'.Stands target argumentBuffers) (h : b.slot.text = b'.slot.text) :
    b.slot = b'.slot := by
  cases target with
  | direct3d12 =>
    simp only [Stands] at hb hb'
    rw [hb, hb'] at h ⊢
    exact Slot.text_register h
  | vulkan =>
    simp only [Stands] at hb hb'
    rw [hb, hb'] at h ⊢
    exact Slot.text_descriptor h
  | metal =>
    cases argumentBuffers with
    | true =>
      simp only [Stands, if_true] at hb hb'
      rw [hb, hb'] at h ⊢
      exact Slot.text_member h
    | false =>
      obtain ⟨n, hn, -⟩ := hb
      obtain ⟨m, hm, -⟩ := hb'
      rw [hn, hm] at h ⊢
      exact Slot.text_argument h

/-- Bindings that have no place in common have different texts. -/
theorem nodup_texts {bs : List Binding} (hlen : ∀ b ∈ bs, 1 ≤ b.resource.length)
    (hstands : ∀ b ∈ bs, b.Stands target argumentBuffers)
    (hapart : bs.Pairwise fun b b' => List.Disjoint b.places b'.places) :
    (bs.map fun b => b.slot.text).Nodup := by
  rw [Nodup, pairwise_map]
  refine hapart.imp_of_mem fun {b b'} hb hb' hdisjoint htext => ?_
  have hslot := slot_eq_of_text (hstands b hb) (hstands b' hb') htext
  exact hdisjoint (slot_mem_places (hlen b hb)) (hslot ▸ slot_mem_places (hlen b' hb'))

end Binding

section Declarations
variable {t : ResourceTable} {x : Frequency × TableResource} {lines : List String}

theorem Emit.exists_declaration {target : Target} {descriptorIndexing : Bool} {word : String}
    {declare : Frequency → TableResource → Except Failure (List String)}
    (h : tableLines target descriptorIndexing declare word t = .ok lines) (hx : x ∈ t.resources) :
    ∃ ls, declare x.1 x.2 = .ok ls ∧ ls ⊆ lines := by
  simp only [tableLines, bind_eq_ok, pure_eq_ok] at h
  obtain ⟨_, -, sets, hsets, rfl⟩ := h
  obtain ⟨s, hs, hfrequency, hr⟩ := ResourceTable.mem_resources.1 hx
  obtain ⟨set, hset, hlines⟩ := exists_of_mapM hsets hs
  simp only [setLines, bind_eq_ok, pure_eq_ok] at hlines
  obtain ⟨declarations, hdeclarations, rfl⟩ := hlines
  obtain ⟨ls, hmem, hdeclare⟩ := exists_of_mapM hdeclarations hr
  refine ⟨ls, hfrequency ▸ hdeclare, fun line hline => mem_flatten.2 ⟨_, hset, ?_⟩⟩
  exact mem_append_right _ (mem_flatten.2 ⟨ls, hmem, hline⟩)

theorem Hlsl.exists_declares (h : declaration x.1 x.2 = .ok lines) :
    ∃ line ∈ lines, Declares (slot x.1 x.2).text x.2.name line := by
  have hplace : callText "register" [(slot x.1 x.2).text] = s!"register({(slot x.1 x.2).text})" :=
    rfl
  simp only [declaration, hplace] at h
  split at h
  · split at h
    · cases h
      exact ⟨_, mem_cons_self, .inr rfl⟩
    · split at h
      · cases h
        exact ⟨_, mem_cons_self, .inl ⟨_, _, rfl⟩⟩
      · cases h
  · cases h
    exact ⟨_, mem_cons_self, .inl ⟨_, _, rfl⟩⟩

theorem Glsl.exists_declares (h : declaration x.1 x.2 = .ok lines) :
    ∃ line ∈ lines, Declares (slot x.1 x.2).text x.2.name line := by
  simp only [declaration] at h
  split at h
  · cases h
    exact ⟨_, mem_cons_self, .inl ⟨_, _, _, rfl⟩⟩
  · cases h
    exact ⟨_, mem_cons_self, .inl ⟨_, _, _, rfl⟩⟩
  · split at h
    · cases h
      exact ⟨_, mem_cons_self, .inl ⟨_, _, _, rfl⟩⟩
    · cases h
  all_goals
    split at h
    · cases h
    · cases h
      exact ⟨_, mem_cons_self, .inr ⟨_, _, rfl⟩⟩

end Declarations

section Generation
variable {u : ShaderUnit} {options : EmitOptions} {shader : Shader} {t : ResourceTable}

theorem Hlsl.bound_of_generate (h : generate options u = .ok shader) (hu : u.table = some t) :
    shader.info.bindings = Emit.bindings t slot ∧ ∃ lines, shader.source = ofLines lines ∧
      ∀ x ∈ t.resources, ∃ line ∈ lines, Declares (slot x.1 x.2).text x.2.name line := by
  simp only [generate, hu, bind_eq_ok, pure_eq_ok] at h
  obtain ⟨table, htable, _, -, _, -, _, -, rfl⟩ := h
  refine ⟨by simp [ShaderInfo.ofUnit, bindingsOf, hu], _, rfl, fun x hx => ?_⟩
  obtain ⟨ls, hls, hsub⟩ := exists_declaration htable hx
  obtain ⟨line, hline, hdeclares⟩ := exists_declares hls
  exact ⟨line, by simp [hsub hline], hdeclares⟩

theorem Glsl.bound_of_generate (h : generate options u = .ok shader) (hu : u.table = some t) :
    shader.info.bindings = Emit.bindings t slot ∧ ∃ lines, shader.source = ofLines lines ∧
      ∀ x ∈ t.resources, ∃ line ∈ lines, Declares (slot x.1 x.2).text x.2.name line := by
  simp only [generate, hu, bind_eq_ok, pure_eq_ok] at h
  obtain ⟨table, htable, _, -, _, -, _, -, rfl⟩ := h
  refine ⟨by simp [ShaderInfo.ofUnit, bindingsOf, hu], _, rfl, fun x hx => ?_⟩
  obtain ⟨ls, hls, hsub⟩ := exists_declaration htable hx
  obtain ⟨line, hline, hdeclares⟩ := exists_declares hls
  exact ⟨line, by simp [hsub hline], hdeclares⟩

theorem Msl.Parts.takes (parts : Parts options u) {param : String} (h : param ∈ parts.params) :
    Binding.Takes u parts.lines param :=
  ⟨_, _, parts.entry_suffix.subset mem_cons_self, mem_append_right _ h⟩

end Generation

namespace ShaderUnit
variable {p : Program} {ts : ResourceTables} {t : ResourceTable} {u : ShaderUnit}
  {options : EmitOptions} {shader : Shader}

theorem bindings_placed (hp : p.resolveTables = .ok ts) (ht : t ∈ ts.tables)
    (hlen : ∀ x ∈ t.resources, 1 ≤ x.2.length) (hu : u.table = some t)
    (hg : u.generate options = .ok shader) :
    shader.info.bindings.map (fun b => (b.frequency, b.resource)) = t.resources ∧
    (∀ b ∈ shader.info.bindings, b.Stands u.target (Msl.usesArgumentBuffers options u)) ∧
    shader.info.bindings.Pairwise fun b b' => List.Disjoint b.places b'.places := by
  obtain ⟨d, hd, rfl⟩ := Program.resolveTables_eq_ok hp
  obtain ⟨decl, -, hr⟩ := (ResourceTables.mem_tables hd.tables.nodup).1 ht
  have hw := (TableDecl.resolve_eq_ok.1 hr).2.2
  have hc : ∀ s ∈ t.sets, Consecutive 0 s.resources s.count :=
    fun s hs => ResourceTable.consecutive_of_resolve hr hs
  rw [generate] at hg
  cases htarget : u.target with
  | direct3d12 =>
    rw [htarget] at hg
    rw [(Hlsl.bound_of_generate hg hu).1]
    refine Emit.bindings_apart hw hc fun x hx y hy h place hplace hplace' => ?_
    simp only [Binding.places, Hlsl.slot, List.mem_map, List.mem_range'_1] at hplace hplace'
    obtain ⟨m, hm, rfl⟩ := hplace
    obtain ⟨m', hm', he⟩ := hplace'
    obtain ⟨-, rfl, hf⟩ := Slot.register.inj he
    omega
  | vulkan =>
    rw [htarget] at hg
    rw [(Glsl.bound_of_generate hg hu).1]
    refine Emit.bindings_apart hw hc fun x hx y hy h place hplace hplace' => ?_
    simp only [Binding.places, Glsl.slot, List.mem_singleton] at hplace hplace'
    obtain ⟨hf, hi⟩ := Slot.descriptor.inj (hplace.symm.trans hplace')
    have := hlen x hx
    omega
  | metal =>
    rw [htarget] at hg
    obtain ⟨hbindings, hlimits⟩ := Msl.bindings_of_generate hg hu
    rw [hbindings]
    cases hbuffers : Msl.usesArgumentBuffers options u with
    | true =>
      refine Emit.bindings_apart hw hc fun x hx y hy h place hplace hplace' => ?_
      simp only [Binding.places, Msl.memberSlot, List.mem_map, List.mem_range'_1] at hplace hplace'
      obtain ⟨m, hm, rfl⟩ := hplace
      obtain ⟨m', hm', he⟩ := hplace'
      obtain ⟨hf, rfl⟩ := Slot.member.inj he
      omega
    | false =>
      rw [hbuffers] at hlimits
      refine ⟨Msl.map_directBindings, fun b hb => ?_, Msl.directBindings_disjoint hlen⟩
      obtain ⟨n, hslot, -, hn⟩ := Msl.mem_directBindings hlen hb
      have hceiling := Msl.demand_le_ceiling hlimits (.ofKind b.resource.kind)
      rw [Msl.Taken.count_none, Nat.zero_add] at hn
      exact ⟨n, hslot, Nat.le_trans hn hceiling⟩

theorem bindings_declared (hu : u.table = some t) (hg : u.generate options = .ok shader)
    (hmem : ∀ b ∈ shader.info.bindings, (b.frequency, b.resource) ∈ t.resources)
    (hstands : ∀ b ∈ shader.info.bindings, b.Stands u.target (Msl.usesArgumentBuffers options u)) :
    ∃ lines, shader.source = ofLines lines ∧
      ∀ b ∈ shader.info.bindings, b.Declared u (Msl.usesArgumentBuffers options u) lines := by
  rw [generate] at hg
  cases htarget : u.target with
  | direct3d12 =>
    rw [htarget] at hg hstands
    obtain ⟨-, lines, hsource, hlines⟩ := Hlsl.bound_of_generate hg hu
    refine ⟨lines, hsource, fun b hb => ?_⟩
    have hslot : b.slot = Hlsl.slot b.frequency b.resource := hstands b hb
    simpa only [Binding.Declared, htarget, hslot] using hlines _ (hmem b hb)
  | vulkan =>
    rw [htarget] at hg hstands
    obtain ⟨-, lines, hsource, hlines⟩ := Glsl.bound_of_generate hg hu
    refine ⟨lines, hsource, fun b hb => ?_⟩
    have hslot : b.slot = Glsl.slot b.frequency b.resource := hstands b hb
    simpa only [Binding.Declared, htarget, hslot] using hlines _ (hmem b hb)
  | metal =>
    rw [htarget] at hg hstands
    obtain ⟨parts, hsource⟩ := Msl.exists_parts hg
    refine ⟨parts.lines, hsource, fun b hb => ?_⟩
    have htable := parts.table_eq t hu
    cases hbuffers : Msl.usesArgumentBuffers options u with
    | true =>
      rw [hbuffers] at htable hstands
      have hslot : b.slot = .member b.frequency.index b.resource.index := hstands b hb
      obtain ⟨⟨members, type, hstruct, hmember⟩, hparam⟩ := Msl.bufferMember_mem htable (hmem b hb)
      simp only [Binding.Declared, htarget, if_true, hslot]
      exact ⟨_, _, members, type, rfl, parts.takes hparam, hstruct.trans parts.table_within,
        hmember⟩
    | false =>
      rw [hbuffers] at htable
      rw [(Msl.bindings_of_generate hg hu).1, hbuffers] at hb
      simp only [Binding.Declared, htarget, Bool.false_eq_true, if_false]
      intro hname
      obtain ⟨type, hparam⟩ := Msl.directParam_mem htable hb hname
      exact ⟨type, parts.takes hparam⟩

/-- A generated shader binds every resource of its table once, in the order of the table, where its
target puts it. No two bindings have a place in common, nor the text of one, and the shader's
declarations have these texts. -/
theorem bindings_apart_of_generate (hp : p.resolveTables = .ok ts) (ht : t ∈ ts.tables)
    (hlen : ∀ x ∈ t.resources, 1 ≤ x.2.length) (hu : u.table = some t)
    (hg : u.generate options = .ok shader) :
    shader.info.bindings.map (fun b => (b.frequency, b.resource)) = t.resources ∧
    (∀ b ∈ shader.info.bindings, b.Stands u.target (Msl.usesArgumentBuffers options u)) ∧
    shader.info.bindings.Pairwise (fun b b' => List.Disjoint b.places b'.places) ∧
    (shader.info.bindings.map fun b => b.slot.text).Nodup ∧
    ∃ lines, shader.source = ofLines lines ∧
      ∀ b ∈ shader.info.bindings, b.Declared u (Msl.usesArgumentBuffers options u) lines := by
  obtain ⟨hall, hstands, hapart⟩ := bindings_placed hp ht hlen hu hg
  have hmem : ∀ b ∈ shader.info.bindings, (b.frequency, b.resource) ∈ t.resources :=
    fun b hb => hall ▸ mem_map_of_mem hb
  exact ⟨hall, hstands, hapart,
    Binding.nodup_texts (fun b hb => hlen _ (hmem b hb)) hstands hapart,
    bindings_declared hu hg hmem hstands⟩

/-- A shader that does nothing with the table of `litProgram`. -/
def litUnit (target : Target) : ShaderUnit :=
  { name := "lit", stage := .compute, features := .empty, target, structs := [], globals := [],
    helpers := [], entry := ⟨⟨"main", .void, [], [], ⟨"lit.fsl", 1⟩⟩, [], []⟩, interface := default,
    threads := some ⟨8, 8, 1⟩, compared := [], table := some Program.litTable }

theorem bindings_apart_of_generate_litUnit :
    (∃ shader, (litUnit .metal).generate .standard = .ok shader ∧
      shader.info.bindings.map Binding.slot =
        [.argument .texture 0, .argument .sampler 0, .argument .buffer 0] ∧
      shader.info.bindings.Pairwise fun b b' => List.Disjoint b.places b'.places) ∧
    ∃ shader lines, (litUnit .direct3d12).generate .standard = .ok shader ∧
      shader.info.bindings.map Binding.slot =
        [.register .view 0 0, .register .sampler 4 0, .register .constants 0 1] ∧
      (shader.info.bindings.map fun b => b.slot.text).Nodup ∧ shader.source = ofLines lines ∧
      ∀ b ∈ shader.info.bindings, b.Declared (litUnit .direct3d12) false lines := by
  have ht : Program.litTable ∈ Program.litTables.tables := by
    rw [Program.tables_litTables]
    exact .head _
  have hlen : ∀ x ∈ Program.litTable.resources, 1 ≤ x.2.length := by decide
  constructor
  · obtain ⟨shader, hg⟩ : ∃ shader, (litUnit .metal).generate .standard = .ok shader := ⟨_, rfl⟩
    have hslots : ((litUnit .metal).generate .standard).map (·.info.bindings.map Binding.slot) =
      .ok [.argument .texture 0, .argument .sampler 0, .argument .buffer 0] := by rfl
    rw [hg] at hslots
    exact ⟨shader, hg, Except.ok.inj hslots,
      (bindings_apart_of_generate Program.resolveTables_litProgram ht hlen rfl hg).2.2.1⟩
  · obtain ⟨shader, hg⟩ : ∃ shader, (litUnit .direct3d12).generate .standard = .ok shader :=
      ⟨_, rfl⟩
    have hslots :
        ((litUnit .direct3d12).generate .standard).map (·.info.bindings.map Binding.slot) =
        .ok [.register .view 0 0, .register .sampler 4 0, .register .constants 0 1] := by rfl
    rw [hg] at hslots
    obtain ⟨-, -, -, htexts, lines, hlines, hdeclared⟩ :=
      bindings_apart_of_generate Program.resolveTables_litProgram ht hlen rfl hg
    exact ⟨shader, lines, hg, Except.ok.inj hslots, htexts, hlines, hdeclared⟩

end ShaderUnit
end ShaderDialect
