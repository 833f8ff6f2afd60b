import ShaderDialect.Proofs.Build.Tasks
import ShaderDialect.Proofs.ShaderUnit.Reach
import ShaderDialect.Proofs.Source.Locality
import ShaderDialect.Proofs.VariantContainer.Encoding

/-! When an input is built without fault: it can be read, its tables and outputs are right, a shader
is generated for each output on each target, no two variants of an output have the same features,
and the tree takes all files. -/
namespace ShaderDialect

open List Success

namespace VariantContainer
variable {c : VariantContainer} {v : Variant}

/-- A variant is refused exactly if there is one for its target and features. -/
theorem exists_insert : (∃ d, c.insert v = .ok d) ↔ v.key ∉ c.variants.map Variant.key := by
  rw [← with?_eq_none]
  simp only [insert_eq_ok, ← with?_eq_some, Option.ne_none_iff_exists']

end VariantContainer

theorem variantKey_inj {target : Target} {features features' : FeatureSet} :
    variantKey target features = variantKey target features' ↔ features = features' := by
  refine ⟨fun h => ?_, fun h => h ▸ rfl⟩
  have hbits : features.bits.toNat = features'.bits.toNat := Nat.add_left_cancel h
  obtain ⟨bits⟩ := features
  obtain ⟨bits'⟩ := features'
  exact congrArg FeatureSet.mk (BitVec.eq_of_toNat_eq hbits)

theorem Text.mem_nameSet {name : String} {names : List String} :
    name ∈ Text.nameSet names ↔ name ∈ names := by
  rw [nameSet, sortNames, (mergeSort_perm _ _).mem_iff, mem_distinct]

namespace Plan
variable {α β : Type}

theorem answer_bind_eq_ok {x : Plan α} {f : α → Plan β} {r : β} :
    (x >>= f).answer = .ok r ↔ ∃ a, x.answer = .ok a ∧ (f a).answer = .ok r := by
  obtain ⟨parts, answer⟩ := x
  cases answer <;> simp [bind]

theorem answer_forM_eq_ok {f : β → Plan Unit} {xs : List β} :
    (xs.forM f).answer = .ok () ↔ ∀ x ∈ xs, (f x).answer = .ok () := by
  induction xs with
  | nil => simp [pure]
  | cons x xs ih =>
    change (f x >>= fun _ => xs.forM f).answer = .ok () ↔ _
    rw [answer_bind_eq_ok, forall_mem_cons, ← ih]
    exact ⟨fun ⟨_, hx, hxs⟩ => ⟨hx, hxs⟩, fun ⟨hx, hxs⟩ => ⟨(), hx, hxs⟩⟩

end Plan

namespace Builder
variable {b : Builder} {f : ShaderFile} {target : Target} {os : List Output}

def Generates (b : Builder) (f : ShaderFile) (target : Target) (o : Output) : Prop :=
  ∃ s, f.shader b.config.signatures (b.config.options target).emitOptions o target = .ok s

theorem answer_planVariant {c d : VariantContainer} {o : Output} :
    (b.planVariant f target c o).answer = .ok d ↔
      ∃ s, f.shader b.config.signatures (b.config.options target).emitOptions o target = .ok s ∧
        c.insert ⟨target, o.features, Text.utf8 s.source⟩ = .ok d := by
  have hwrite : ∀ fs : Files, (Plan.write fs).answer = .ok () := fun _ => rfl
  have hanswer : ∀ {γ : Type} (answer : Except Failure γ), (Plan.ofAnswer answer).answer = answer :=
    fun _ => rfl
  simp only [planVariant, Plan.answer_bind_eq_ok, hwrite, hanswer, true_and]
  refine exists_congr fun s => and_congr_right fun _ => ?_
  cases c.insert ⟨target, o.features, Text.utf8 s.source⟩ <;> simp [Except.mapError]

/-- The variants of one name go into one container if they differ in their features, from each other
and from those that are there. -/
theorem answer_foldlM_planVariant (c : VariantContainer) :
    (∃ d, (os.foldlM (b.planVariant f target) c).answer = .ok d) ↔
      (∀ o ∈ os, b.Generates f target o) ∧
        (os.map (fun o => variantKey target o.features) ++ c.variants.map Variant.key).Nodup := by
  induction os generalizing c with
  | nil => simpa [pure] using c.nodup_keys
  | cons o os ih =>
    simp only [foldlM_cons, Plan.answer_bind_eq_ok, answer_planVariant, forall_mem_cons,
      map_cons, cons_append]
    constructor
    · rintro ⟨d, c', ⟨s, hs, hinsert⟩, hd⟩
      obtain ⟨hall, hnodup⟩ := (ih c').1 ⟨d, hd⟩
      refine ⟨⟨⟨s, hs⟩, hall⟩, ?_⟩
      have hkeys := (VariantContainer.insert_eq_ok.1 hinsert).map Variant.key
      exact ((hkeys.append_left _).trans perm_middle).nodup_iff.1 hnodup
    · rintro ⟨⟨⟨s, hs⟩, hall⟩, hnodup⟩
      have hnew : variantKey target o.features ∉ c.variants.map Variant.key := fun hmem =>
        (nodup_cons.1 hnodup).1 (mem_append_right _ hmem)
      let v : Variant := ⟨target, o.features, Text.utf8 s.source⟩
      obtain ⟨c', hinsert⟩ : ∃ c', c.insert v = .ok c' := VariantContainer.exists_insert.2 hnew
      have hkeys := (VariantContainer.insert_eq_ok.1 hinsert).map Variant.key
      obtain ⟨d, hd⟩ := (ih c').2
        ⟨hall, ((hkeys.append_left _).trans perm_middle).nodup_iff.2 hnodup⟩
      exact ⟨d, c', ⟨s, hs, hinsert⟩, hd⟩

theorem answer_planGroup (name : String) : (b.planGroup f target name os).answer = .ok () ↔
    (∀ o ∈ os, b.Generates f target o) ∧ (os.map Output.features).Nodup := by
  have hkeys : os.map (fun o => variantKey target o.features) =
      (os.map Output.features).map (variantKey target) := by simp
  have hvariants : (∃ d, (os.foldlM (b.planVariant f target) .empty).answer = .ok d) ↔ _ :=
    answer_foldlM_planVariant .empty
  simp only [VariantContainer.empty, map_nil, append_nil, hkeys,
    nodup_map_iff fun _ _ => variantKey_inj.1] at hvariants
  rw [planGroup, Plan.answer_bind_eq_ok, ← hvariants]
  refine exists_congr fun container => and_iff_left ?_
  split
  · split <;> rfl
  · rfl

theorem nodup_filter_iff : (∀ name ∈ os.map Output.name,
      ((os.filter (·.name == name)).map Output.features).Nodup) ↔
    (os.map fun o => (o.name, o.features)).Nodup := by
  simp only [List.Nodup, pairwise_map, pairwise_filter]
  constructor
  · intro h
    rw [pairwise_iff_forall_sublist]
    intro o o' hsub heq
    obtain ⟨hname, hfeatures⟩ := Prod.mk.inj heq
    have hmem : o.name ∈ os.map Output.name := mem_map_of_mem (hsub.subset mem_cons_self)
    have hpair := pairwise_iff_forall_sublist.1 (h o.name hmem) hsub
    exact hpair (by simp) (by simp [hname]) hfeatures
  · intro h name _
    refine h.imp fun {o o'} hne ho ho' hfeatures => hne ?_
    rw [beq_iff_eq] at ho ho'
    rw [ho, ho', hfeatures]

/-- What is generated for a target is complete exactly if a shader is generated for each output, and
no two of one name have the same features. -/
theorem answer_planTarget : (b.planTarget f target os).answer = .ok () ↔
    (∀ o ∈ os, b.Generates f target o) ∧ (os.map fun o => (o.name, o.features)).Nodup := by
  rw [planTarget, Plan.answer_forM_eq_ok, ← nodup_filter_iff]
  simp only [answer_planGroup, Text.mem_nameSet, mem_filter, beq_iff_eq, and_imp]
  constructor
  · intro h
    exact ⟨fun o ho => (h o.name (mem_map_of_mem ho)).1 o ho rfl, fun name hname =>
      (h name hname).2⟩
  · rintro ⟨hall, hnodup⟩ name hname
    exact ⟨fun o ho _ => hall o ho, hnodup name hname⟩

end Builder

theorem ShaderFile.source_of_load {t : FileTree} {paths : List Path} {input : Path} {f : ShaderFile}
    (h : load t paths input = .ok f) : Source.load t paths input = .ok f.source := by
  simp only [load, ofSource, bind_eq_ok, pure_eq_ok] at h
  obtain ⟨source, hsource, _, -, _, -, rfl⟩ := h
  exact hsource

theorem FileTree.exists_place {t : FileTree} {p : Path} (content content' : List UInt8) :
    (∃ t', t.place p content = .ok t') ↔ ∃ t', t.place p content' = .ok t' := by
  have hwrite (t : FileTree) : ∃ result : Except IoFault Key, ∀ content,
      t.write p content = result.map fun k => t.insert k (.file content false) := by
    unfold write
    rcases t.lookupLast p with e | ⟨dir, last⟩
    · exact ⟨.error e, fun _ => rfl⟩
    cases last with
    | none => exact ⟨.error .isADirectory, fun _ => rfl⟩
    | some c =>
      cases c with
      | root | here | up => exact ⟨.error .isADirectory, fun _ => rfl⟩
      | name s =>
        by_cases hslash : p.endsInSlash
        · exact ⟨.error .isADirectory, fun _ => by simp [hslash, bind, Except.bind]; rfl⟩
        cases hname : checkName s with
        | error e => exact ⟨.error e, fun _ => by simp [hslash, hname, bind, Except.bind]; rfl⟩
        | ok _ =>
          by_cases hdir : t.node? (dir ++ [s]) = some .directory
          · exact ⟨.error .isADirectory,
              fun _ => by simp [hslash, hname, hdir, bind, Except.bind]; rfl⟩
          · exact ⟨.ok (dir ++ [s]), fun _ => by simp [hslash, hname, hdir, bind, Except.bind]; rfl⟩
  simp only [place_eq]
  cases t.makeDirectories p.directory with
  | error e => simp
  | ok t₁ =>
    obtain ⟨result, hresult⟩ := hwrite t₁
    simp only [hresult]
    cases result <;> simp [Except.map]

/-- Done at one go, a task tells that its input has been built without fault. -/
def Task.Passes (task : Task) (t : FileTree) : Prop :=
  ∃ r, (task.finish t).1.report? = some r ∧ r.succeeded = true

namespace Builder
variable {b : Builder} {t : FileTree}

theorem exists_ofFiles {paths : List Path} (h : ∀ p ∈ paths, ∃ text, t.readText p = .ok text) :
    ∃ fingerprint, Fingerprint.ofFiles t paths = .ok fingerprint := by
  have hstream : ∃ bytes, Fingerprint.stream t paths = .ok bytes := by
    induction paths with
    | nil => exact ⟨[], rfl⟩
    | cons p paths ih =>
      rw [forall_mem_cons] at h
      obtain ⟨⟨text, htext⟩, h⟩ := h
      obtain ⟨bytes, hbytes⟩ := ih h
      simp only [FileTree.readText, bind_eq_ok] at htext
      obtain ⟨content, hcontent, -⟩ := htext
      exact ⟨Fingerprint.framed p content ++ bytes, by simp [Fingerprint.stream, hcontent, hbytes]⟩
  obtain ⟨bytes, hbytes⟩ := hstream
  exact ⟨_, by rw [Fingerprint.ofFiles, hbytes]; rfl⟩

/-- An input passes exactly if it can be read, nothing is wrong with it, all that is to be generated
is generated, and the tree takes it. -/
theorem passes_task (input : Path) : (b.task input).Passes t ↔
    ∃ canonical f os, t.canonical input = .ok canonical ∧
      ShaderFile.load t b.config.includePaths input = .ok f ∧ f.tables.faults = [] ∧
      f.outputs = .ok os ∧
      (∀ target ∈ b.config.targets, (b.planTarget f target os).answer = .ok ()) ∧
      ∃ t', t.placeAll (b.generated f ++ [(b.cache.rowPath canonical, [])]) = .ok t' := by
  have hplaced (f : ShaderFile) (canonical : Path) (content : List UInt8) :
      (∃ t', t.placeAll (b.generated f ++ [(b.cache.rowPath canonical, [])]) = .ok t') ↔
        ∃ t₁, t.placeAll (b.generated f) = .ok t₁ ∧
          ∃ t', t₁.place (b.cache.rowPath canonical) content = .ok t' := by
    simp only [FileTree.placeAll_append, FileTree.placeAll_cons, FileTree.placeAll_nil,
      FileTree.exists_place content []]
    grind
  constructor
  · rintro ⟨r, hreport, hs⟩
    rcases b.finish_task_cases t input with
      ⟨x, t', rfl, hx, hfinish⟩ | ⟨_, r', _, -, -, -, hs', hfinish⟩ <;> rw [hfinish] at hreport
    · obtain ⟨os, hf, -⟩ := hx.faultless
      obtain ⟨t₁, hall, hrecord⟩ := hx.recorded
      exact ⟨x.canonical, x.file, os, hx.canonical, hx.load, hf.faults, hf.outputs, hf.answers,
        (hplaced _ _ _).2 ⟨t₁, hall, t', hrecord⟩⟩
    · cases hreport
      cases hs.symm.trans hs'
  · rintro ⟨canonical, f, os, hcanonical, hload, hfaults, hos, hanswers, hall⟩
    obtain ⟨fp, hprint⟩ :=
      exists_ofFiles (Source.readText_of_load (ShaderFile.source_of_load hload))
    obtain ⟨t₁, hall, t', hrecord⟩ := (hplaced _ _ (Text.utf8
      (b.rowOf canonical f fp (b.reportOn f input os)).toJson.pretty)).1 hall
    rw [Task.Passes]
    rcases finish_task_of_load hcanonical hload hprint with
      ⟨os', t₂, hf, hall', hfinish⟩ | ⟨hnot, -⟩
    · cases hall.symm.trans hall'
      cases hos.symm.trans hf.outputs
      have hs : (b.reportOn f input os).succeeded = true := (succeeded_reportOn input).2 hfaults
      rw [hfinish]
      rcases @finish_recordTask b ⟨input, canonical, f, fp, b.reportOn f input os⟩ hs t₁ with
        ⟨_, -, hbuilt⟩ | ⟨e, herror, -⟩
      · rw [hbuilt]
        exact ⟨_, rfl, hs⟩
      · cases herror.symm.trans hrecord
    · exact absurd hall (hnot os ⟨hfaults, hos, hanswers⟩ t₁)

end Builder
end ShaderDialect
