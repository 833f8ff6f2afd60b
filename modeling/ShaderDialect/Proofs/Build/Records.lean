import ShaderDialect.Proofs.Build.Stems

/-! What is recorded for the targets of an input, whether shaders are compiled or not: a target that
is built has the files of its outputs, and a file for each name. -/
namespace ShaderDialect

open Success

namespace Building
variable {α β γ : Type} {w w' : FileWork}

/-- Work that leaves a part of the state as it is, whether it is done or fails. -/
def Keeps (part : FileWork → γ) (x : Building α) : Prop := ∀ w, part (x.after w).2 = part w

section Keeping
variable {part : FileWork → γ}

theorem Keeps.of_ok {x : Building α} {a : α} (hx : Keeps part x) (h : x.after w = (.ok a, w')) :
    part w' = part w := by
  have := hx w
  rwa [h] at this

theorem keeps_pure (a : α) : Keeps part (pure a) := fun _ => rfl

theorem keeps_throw (e : Failure) : Keeps part (throw e : Building α) := fun _ => rfl

theorem keeps_get : Keeps part get := fun _ => rfl

theorem keeps_lift (r : Except Failure α) : Keeps part (ExceptT.mk (pure r)) := fun _ => rfl

theorem keeps_bind {x : Building α} {f : α → Building β} (hx : Keeps part x)
    (hf : ∀ a, Keeps part (f a)) : Keeps part (x >>= f) := by
  intro w
  have h := hx w
  rw [after_bind]
  rcases hw : x.after w with ⟨e | a, w₁⟩ <;> rw [hw] at h
  · exact h
  · exact (hf a w₁).trans h

theorem keeps_ite {c : Prop} [Decidable c] {x y : Building α} (hx : Keeps part x)
    (hy : Keeps part y) : Keeps part (if c then x else y) := by
  split
  · exact hx
  · exact hy

theorem keeps_forM {f : β → Building Unit} (hf : ∀ x, Keeps part (f x)) (xs : List β) :
    Keeps part (xs.forM f) := by
  induction xs with
  | nil => exact keeps_pure ()
  | cons x xs ih => exact keeps_bind (hf x) fun _ => ih

theorem keeps_foldlM {f : α → β → Building α} (hf : ∀ a x, Keeps part (f a x)) (xs : List β)
    (a : α) : Keeps part (xs.foldlM f a) := by
  induction xs generalizing a with
  | nil => exact keeps_pure a
  | cons x xs ih => exact keeps_bind (hf a x) fun a' => ih a'

end Keeping
end Building

/-- What has been recorded of the work: its report, and the files of the present target. -/
def FileWork.recorded (w : FileWork) : FileReport × List Path := (w.report, w.artifacts)

namespace Builder
variable {d : VariantContainer} (name : String) (s : Shader) {b : Builder} {f : ShaderFile}
  {target : Target} {o : Output} {os : List Output} {w w' : FileWork} {c : VariantContainer}
  {u : Unit}

open Building

theorem keeps_checkCancelled {γ : Type} {part : FileWork → γ} : checkCancelled.Keeps part := by
  refine keeps_bind keeps_get fun w => ?_
  exact keeps_ite (keeps_throw _) (keeps_pure _)

theorem keeps_place (p : Path) (content : List UInt8) :
    (place p content).Keeps FileWork.recorded := by
  refine keeps_bind keeps_get fun w => ?_
  split
  · intro w'
    rfl
  · exact keeps_throw _

theorem keeps_compile : (b.compile f o target s).Keeps FileWork.recorded := by
  unfold compile
  split
  · refine keeps_bind keeps_get fun w => keeps_bind (fun _ => rfl) fun _ => ?_
    split
    · exact keeps_pure _
    · dsimp only
      split
      · exact keeps_bind (fun _ => rfl) fun _ => keeps_throw _
      · exact keeps_throw _
  · exact keeps_throw _

theorem keeps_report {α : Type} {x : Building α} (h : x.Keeps FileWork.recorded) :
    x.Keeps FileWork.report := fun w => congrArg Prod.fst (h w)

section Writing
variable {fs : List (Path × List UInt8)}

theorem keeps_write : (write fs).Keeps FileWork.report :=
  keeps_bind (keeps_forM (fun _ => keeps_report (keeps_place _ _)) _) fun _ _ => rfl

theorem artifacts_of_write {u : Unit} (h : (write fs).after w = (.ok u, w')) :
    w'.artifacts = w.artifacts ++ fs.map Prod.fst := by
  obtain ⟨_, w₁, h₁, h⟩ := after_bind_eq_ok.1 h
  obtain ⟨-, rfl⟩ := Prod.mk.inj h
  have hplaced :=
    (keeps_forM (fun file : Path × List UInt8 => keeps_place file.1 file.2) fs).of_ok h₁
  exact congrArg (· ++ fs.map Prod.fst) (congrArg Prod.snd hplaced)

end Writing

/-- The place of a file of a target, which has a name and an ending. -/
def filePath (b : Builder) (target : Target) (file : String × String) : Path :=
  (b.targetDir target).joinName (file.1 ++ file.2)

/-- The files of an output, by their names and endings. -/
def variantFiles (target : Target) (o : Output) : List (String × String) :=
  [(o.stem, "." ++ target.sourceExtension), (o.stem, ".meta.json")]

def variantBytes (b : Builder) (f : ShaderFile) (target : Target) (o : Output) (s : Shader) :
    Building (List UInt8) :=
  if b.config.compile then checkCancelled >>= fun _ => b.compile f o target s
  else pure (Text.utf8 s.source)

theorem keeps_variantBytes : (b.variantBytes f target o s).Keeps FileWork.recorded :=
  keeps_ite (keeps_bind keeps_checkCancelled fun _ => keeps_compile s) (keeps_pure _)

theorem buildVariant_eq (c : VariantContainer) : b.buildVariant f target c o = (do
    checkCancelled
    let s ← ExceptT.mk
      (pure (f.shader b.config.signatures (b.config.options target).emitOptions o target))
    write (((variantFiles target o).map (b.filePath target)).zip
      [Text.utf8 s.source, Text.utf8 s.info.toJson.pretty])
    let bytes ← b.variantBytes f target o s
    ExceptT.mk (pure ((c.insert ⟨target, o.features, bytes⟩).mapError .container))) := by
  have hpaths : (variantFiles target o).map (b.filePath target) =
      [(b.targetDir target).joinName s!"{variantStem o.name o.features}.{target.sourceExtension}",
        (b.targetDir target).joinName s!"{variantStem o.name o.features}.meta.json"] := by
    simp only [variantFiles, filePath, List.map_cons, List.map_nil, ← String.append_assoc]
    rfl
  unfold buildVariant
  simp only [hpaths, write_two, List.zip_cons_cons, List.zip_nil_right]
  refine bind_congr fun _ => bind_congr fun s => bind_congr fun _ => ?_
  unfold variantBytes
  split
  · rw [bind_assoc]
    refine bind_congr fun _ => bind_congr fun bytes => ?_
    cases c.insert ⟨target, o.features, bytes⟩ <;> rfl
  · refine bind_congr fun bytes => ?_
    cases c.insert ⟨target, o.features, bytes⟩ <;> rfl

theorem keeps_buildVariant (c : VariantContainer) (o : Output) :
    (b.buildVariant f target c o).Keeps FileWork.report := by
  rw [buildVariant_eq]
  exact keeps_bind keeps_checkCancelled fun _ => keeps_bind (keeps_lift _) fun s =>
    keeps_bind keeps_write fun _ => keeps_bind (keeps_report (keeps_variantBytes s)) fun _ =>
    keeps_lift _

theorem after_buildVariant (h : (b.buildVariant f target c o).after w = (.ok d, w')) :
    w'.artifacts = w.artifacts ++ (variantFiles target o).map (b.filePath target) ∧
      ∃ bytes, c.insert ⟨target, o.features, bytes⟩ = .ok d := by
  rw [buildVariant_eq] at h
  obtain ⟨_, w₁, h₁, h⟩ := after_bind_eq_ok.1 h
  obtain ⟨s, w₂, h₂, h⟩ := after_bind_eq_ok.1 h
  obtain ⟨_, w₃, h₃, h⟩ := after_bind_eq_ok.1 h
  obtain ⟨bytes, w₄, h₄, h⟩ := after_bind_eq_ok.1 h
  obtain ⟨hd, rfl⟩ := Prod.mk.inj h
  constructor
  · have hbytes := congrArg Prod.snd ((keeps_variantBytes s).of_ok h₄)
    have hshader : w₂.artifacts = w₁.artifacts := (keeps_lift _).of_ok h₂
    have hcancelled : w₁.artifacts = w.artifacts := keeps_checkCancelled.of_ok h₁
    change _ = w₃.artifacts at hbytes
    rw [← hcancelled, ← hshader]
    exact hbytes.trans (artifacts_of_write h₃)
  · refine ⟨bytes, ?_⟩
    cases hc : c.insert ⟨target, o.features, bytes⟩ with
    | error e => simp [hc, Except.mapError] at hd
    | ok d' => simpa [hc, Except.mapError] using hd

theorem after_foldlM_buildVariant
    (h : (os.foldlM (b.buildVariant f target) c).after w = (.ok d, w')) :
    w'.artifacts = w.artifacts ++ (os.flatMap (variantFiles target)).map (b.filePath target) ∧
      (d.variants.map Variant.key).Perm
        (os.map (fun o => variantKey target o.features) ++ c.variants.map Variant.key) := by
  induction os generalizing c w with
  | nil =>
    obtain ⟨hd, rfl⟩ := Prod.mk.inj h
    cases hd
    simp
  | cons o os ih =>
    obtain ⟨c₁, w₁, h₁, h⟩ := after_bind_eq_ok.1 h
    obtain ⟨hartifacts₁, bytes, hinsert⟩ := after_buildVariant h₁
    obtain ⟨hartifacts, hkeys⟩ := ih h
    constructor
    · simp [hartifacts, hartifacts₁]
    · have hinserted := (VariantContainer.insert_eq_ok.1 hinsert).map Variant.key
      exact hkeys.trans ((hinserted.append_left _).trans List.perm_middle)

def isSingle : List Output → Bool
  | [o] => o.features.isEmpty
  | _ => false

/-- The file that a name has besides those of its outputs: what a single output is compiled to, or a
container. -/
def nameFiles (b : Builder) (target : Target) (name : String) (os : List Output) :
    List (String × String) :=
  if isSingle os then
    if b.config.compile then [(name, "." ++ target.binaryExtension)] else []
  else [(name, ".fslv")]

def writeName (b : Builder) (target : Target) (name : String) (os : List Output)
    (c : VariantContainer) : Building Unit :=
  if isSingle os then
    if b.config.compile then
      (c.variants.take 1).forM fun v =>
        write [(b.filePath target (name, "." ++ target.binaryExtension), v.bytes)]
    else pure ()
  else write [(b.filePath target (name, ".fslv"), c.toBytes)]

theorem keeps_writeName (c : VariantContainer) (name : String) (os : List Output) :
    (b.writeName target name os c).Keeps FileWork.report := by
  unfold writeName
  exact keeps_ite (keeps_ite (keeps_forM (fun _ => keeps_write) _) (keeps_pure _)) keeps_write

theorem buildGroup_eq : b.buildGroup f target name os =
    os.foldlM (b.buildVariant f target) .empty >>= b.writeName target name os := by
  have hbinary : b.filePath target (name, "." ++ target.binaryExtension) =
      (b.targetDir target).joinName s!"{name}.{target.binaryExtension}" :=
    congrArg (b.targetDir target).joinName String.append_assoc.symm
  unfold buildGroup
  refine bind_congr fun c => ?_
  change (if isSingle os then _ else _) = (if isSingle os then _ else _)
  split
  · split
    · rw [hbinary]
      rcases c.variants with _ | ⟨v, vs⟩
      · rfl
      · simp only [List.take_succ_cons, List.take_zero, List.forIn_cons,
          List.forIn_nil, ← write_one, bind_assoc, pure_bind]
        exact (bind_assoc _ _ _).symm
    · rfl
  · rw [← write_one]
    rfl

theorem artifacts_of_writeName {name : String} (hsingle : isSingle os → c.variants.length = 1)
    (h : (b.writeName target name os c).after w = (.ok u, w')) :
    w'.artifacts = w.artifacts ++ (b.nameFiles target name os).map (b.filePath target) := by
  unfold writeName at h
  unfold nameFiles
  split at h
  · next hs =>
    rw [if_pos hs]
    split at h
    · next hc =>
      obtain ⟨v, hv⟩ := List.length_eq_one_iff.1 (hsingle hs)
      rw [hv] at h
      obtain ⟨_, w₁, h₁, h⟩ := after_bind_eq_ok.1 h
      obtain ⟨-, rfl⟩ := Prod.mk.inj h
      rw [if_pos hc]
      exact artifacts_of_write h₁
    · next hc =>
      obtain ⟨-, rfl⟩ := Prod.mk.inj h
      simp [hc]
  · next hs =>
    rw [if_neg hs]
    exact artifacts_of_write h

def groupFiles (b : Builder) (target : Target) (name : String) (os : List Output) :
    List (String × String) :=
  os.flatMap (variantFiles target) ++ b.nameFiles target name os

def targetFiles (b : Builder) (target : Target) (os : List Output) : List (String × String) :=
  (Text.nameSet (os.map Output.name)).flatMap fun name =>
    b.groupFiles target name (os.filter (·.name == name))

theorem keeps_buildGroup (os : List Output) :
    (b.buildGroup f target name os).Keeps FileWork.report := by
  rw [buildGroup_eq]
  exact keeps_bind (keeps_foldlM keeps_buildVariant _ _) fun c => keeps_writeName c name os

theorem after_buildGroup {name : String}
    (h : (b.buildGroup f target name os).after w = (.ok u, w')) :
    w'.artifacts = w.artifacts ++ (b.groupFiles target name os).map (b.filePath target) ∧
      (os.map Output.features).Nodup := by
  rw [buildGroup_eq] at h
  obtain ⟨c, w₁, h₁, h⟩ := after_bind_eq_ok.1 h
  obtain ⟨hartifacts, hkeys⟩ := after_foldlM_buildVariant h₁
  simp only [VariantContainer.empty, List.map_nil, List.append_nil] at hkeys
  have hsingle : isSingle os → c.variants.length = 1 := by
    intro hs
    have hlength := hkeys.length_eq
    unfold isSingle at hs
    split at hs
    · simpa using hlength
    · cases hs
  constructor
  · rw [artifacts_of_writeName hsingle h, hartifacts, groupFiles, List.map_append,
      List.append_assoc]
  · have hnodup := hkeys.nodup_iff.1 c.nodup_keys
    have hmap : os.map (fun o => variantKey target o.features) =
        (os.map Output.features).map (variantKey target) := by simp
    rw [hmap, List.nodup_map_iff fun _ _ => variantKey_inj.1] at hnodup
    exact hnodup

theorem keeps_buildTarget : (b.buildTarget f os target).Keeps FileWork.report :=
  keeps_forM (fun _ => keeps_buildGroup _ _) _

theorem after_forM_buildGroup {names : List String}
    (h : (names.forM fun name => b.buildGroup f target name (os.filter (·.name == name))).after w =
      (.ok u, w')) :
    w'.artifacts = w.artifacts ++ (names.flatMap fun name =>
        b.groupFiles target name (os.filter (·.name == name))).map (b.filePath target) ∧
      ∀ name ∈ names, ((os.filter (·.name == name)).map Output.features).Nodup := by
  induction names generalizing w with
  | nil =>
    obtain ⟨-, rfl⟩ := Prod.mk.inj h
    simp
  | cons name names ih =>
    obtain ⟨_, w₁, h₁, h⟩ := after_bind_eq_ok.1 h
    obtain ⟨hartifacts₁, hnodup₁⟩ := after_buildGroup h₁
    obtain ⟨hartifacts, hnodup⟩ := ih h
    refine ⟨?_, List.forall_mem_cons.2 ⟨hnodup₁, hnodup⟩⟩
    rw [hartifacts, hartifacts₁, List.flatMap_cons, List.map_append, List.append_assoc]

/-- A target that is built has the files of its outputs, which differ in their names or features. -/
theorem after_buildTarget (h : (b.buildTarget f os target).after w = (.ok u, w')) :
    w'.artifacts = w.artifacts ++ (b.targetFiles target os).map (b.filePath target) ∧
      (os.map fun o => (o.name, o.features)).Nodup := by
  obtain ⟨hartifacts, hnodup⟩ := after_forM_buildGroup h
  refine ⟨hartifacts, nodup_filter_iff.1 fun name hname => hnodup name ?_⟩
  exact Text.mem_nameSet.2 hname

/-- What is recorded for a target that is built. -/
def Recorded (b : Builder) (os : List Output) (t : TargetReport) : Prop :=
  t.artifacts = (b.targetFiles t.target os).map (b.filePath t.target) ∧
    (os.map fun o => (o.name, o.features)).Nodup

theorem after_reportTarget_eq_ok (b : Builder) (f : ShaderFile) (os : List Output) (target : Target)
    (w : FileWork) : ∃ t w', (b.reportTarget f os target).after w = (.ok (), w') ∧
      w'.report.targets = w.report.targets ++ [t] ∧ t.target = target ∧
      (t.status = .built → b.Recorded os t) := by
  rw [reportTarget, after_get_bind]
  split
  · exact ⟨⟨target, _, []⟩, _, rfl, rfl, rfl, fun h => by cases h⟩
  · rw [after_bind]
    change ∃ t w', after (tryCatch _ _ >>= _) { w with artifacts := [] } = _ ∧ _
    have hreport : _ = w.report :=
      @keeps_buildTarget b f target os { w with artifacts := [] }
    rw [after_bind, after_tryCatch, after_bind]
    rcases hw : (b.buildTarget f os target).after { w with artifacts := [] } with ⟨e | u, w₁⟩
    · rw [hw] at hreport
      refine ⟨⟨target, .failed e.message, w₁.artifacts⟩, _, rfl, ?_, rfl, fun h => by cases h⟩
      exact congrArg (fun r : FileReport => r.targets ++ _) hreport
    · rw [hw] at hreport
      refine ⟨⟨target, .built, w₁.artifacts⟩, _, rfl, ?_, rfl, fun _ => after_buildTarget hw⟩
      exact congrArg (fun r : FileReport => r.targets ++ _) hreport

theorem after_reportTargets_eq_ok (b : Builder) (f : ShaderFile) (os : List Output)
    (targets : List Target) (w : FileWork) :
    ∃ ts w', (targets.forM (b.reportTarget f os)).after w = (.ok (), w') ∧
      w'.report.targets = w.report.targets ++ ts ∧ ts.map TargetReport.target = targets ∧
      ∀ t ∈ ts, t.status = .built → b.Recorded os t := by
  induction targets generalizing w with
  | nil => exact ⟨[], w, rfl, by simp, rfl, by simp⟩
  | cons target targets ih =>
    obtain ⟨t, w₁, h₁, htargets₁, rfl, hbuilt₁⟩ := b.after_reportTarget_eq_ok f os target w
    obtain ⟨ts, w', h, htargets, rfl, hbuilt⟩ := ih w₁
    refine ⟨t :: ts, w', ?_, ?_, rfl, List.forall_mem_cons.2 ⟨hbuilt₁, hbuilt⟩⟩
    · rw [after_forM_cons, h₁]
      exact h
    · rw [htargets, htargets₁, List.append_assoc, List.singleton_append]

/-- The part of the state that tells what came of the targets. -/
def reported (w : FileWork) : List TargetReport := w.report.targets

theorem keeps_reported {α : Type} {x : Building α} (h : x.Keeps FileWork.report) :
    x.Keeps reported := fun w => congrArg FileReport.targets (h w)

/-- What work adds to the targets that are reported on, whether it is done or fails. -/
def Tells {α : Type} (P : List TargetReport → Prop) (x : Building α) (w : FileWork) : Prop :=
  ∃ ts, P ts ∧ reported (x.after w).2 = reported w ++ ts

section Telling
variable {α β : Type} {P : List TargetReport → Prop} {x : Building α} {k : α → Building β}

theorem tells_of_keeps (hnone : P []) (hx : x.Keeps reported) : Tells P x w :=
  ⟨[], hnone, by rw [hx w, List.append_nil]⟩

theorem tells_bind (hnone : P []) (hx : x.Keeps reported)
    (hk : ∀ a w₁, x.after w = (.ok a, w₁) → Tells P (k a) w₁) : Tells P (x >>= k) w := by
  have h := hx w
  unfold Tells
  rw [after_bind]
  rcases hw : x.after w with ⟨e | a, w₁⟩ <;> rw [hw] at h
  · exact ⟨[], hnone, by rw [h, List.append_nil]⟩
  · obtain ⟨ts, hts, hadded⟩ := hk a w₁ hw
    exact ⟨ts, hts, by rw [hadded, h]⟩

theorem Tells.bind (hx : Tells P x w) (hk : ∀ a, (k a).Keeps reported) : Tells P (x >>= k) w := by
  obtain ⟨ts, hts, hadded⟩ := hx
  refine ⟨ts, hts, ?_⟩
  rw [after_bind]
  rcases hw : x.after w with ⟨e | a, w₁⟩ <;> rw [hw] at hadded
  · exact hadded
  · exact (hk a w₁).trans hadded

end Telling

theorem keeps_reflectTable (table : ResourceTable) : (b.reflectTable table).Keeps reported := by
  rw [reflectTable_eq]
  exact keeps_bind (keeps_forM (fun _ => keeps_reported (keeps_report (keeps_place _ _))) _)
    fun _ _ => rfl

theorem keeps_conclude (canonical : Path) (fingerprint : String) :
    (b.conclude canonical f fingerprint).Keeps reported :=
  keeps_bind keeps_get fun _ =>
    keeps_ite (keeps_reported (keeps_report (keeps_place _ _))) (keeps_pure _)

/-- The targets of an input are reported on if it can be read and its outputs are right. -/
def TellsTargets (b : Builder) (tree : FileTree) (input : Path) (ts : List TargetReport) : Prop :=
  ts = [] ∨ ∃ f os, ShaderFile.load tree b.config.includePaths input = .ok f ∧ f.outputs = .ok os ∧
    ts.map TargetReport.target = b.config.targets ∧ ∀ t ∈ ts, t.status = .built → b.Recorded os t

theorem tells_produce (b : Builder) (input : Path) (w : FileWork) :
    Tells (b.TellsTargets w.build.tree input) (b.produce input) w := by
  have hnone : b.TellsTargets w.build.tree input [] := .inl rfl
  have hread : (b.readFile input).Keeps reported := keeps_bind keeps_get fun _ => keeps_lift _
  have hprint : ∀ paths, (fingerprint paths).Keeps reported :=
    fun _ => keeps_bind keeps_get fun _ => keeps_lift _
  refine tells_bind hnone keeps_checkCancelled fun _ w₁ hw₁ => ?_
  have hsame : w₁ = w := (keeps_checkCancelled : checkCancelled.Keeps id).of_ok hw₁
  refine tells_bind hnone hread fun f w₂ hw₂ => tells_bind hnone (hprint _) fun _ w₃ _ =>
    tells_bind hnone (fun _ => rfl) fun _ w₄ _ =>
    tells_bind hnone (keeps_forM keeps_reflectTable _) fun _ w₅ _ =>
    tells_bind hnone (keeps_lift _) fun os w₆ hw₆ => ?_
  have hload : ShaderFile.load w.build.tree b.config.includePaths input = .ok f := by
    rw [← hsame]
    exact congrArg Prod.fst hw₂
  have hos : f.outputs = .ok os := congrArg Prod.fst hw₆
  obtain ⟨ts, w₇, hw₇, hadded, htargets, hbuilt⟩ :=
    b.after_reportTargets_eq_ok f os b.config.targets w₆
  have htells : Tells (b.TellsTargets w.build.tree input)
      (b.config.targets.forM (b.reportTarget f os)) w₆ := by
    refine ⟨ts, .inr ⟨f, os, hload, hos, htargets, hbuilt⟩, ?_⟩
    rw [hw₇]
    exact hadded
  exact htells.bind fun _ => keeps_pure _

theorem tells_buildInput (b : Builder) (input : Path) (w : FileWork) :
    Tells (b.TellsTargets w.build.tree input) (b.buildInput input) w := by
  have hnone : b.TellsTargets w.build.tree input [] := .inl rfl
  unfold Tells
  rw [buildInput, after_get_bind]
  change Tells _ _ w
  split
  · exact tells_of_keeps hnone (keeps_throw _)
  · rw [Tells, after_get_bind]
    change Tells _ _ w
    split
    · exact tells_of_keeps hnone fun _ => rfl
    · rw [rebuild_eq]
      exact (b.tells_produce input w).bind fun _ => keeps_conclude _ _

theorem targets_buildFile {s : BuildState} (hs : s.cancelled = false) (input : Path) :
    (b.buildFile s input).1.targets =
      reported ((b.buildInput input).after ⟨s, .start input, []⟩).2 := by
  rw [buildFile, if_neg (Bool.eq_false_iff.1 hs), after]
  rcases (b.buildInput input).run.run ⟨s, .start input, []⟩ with ⟨e | u, w⟩ <;> rfl

theorem tellsTargets_buildFile {s s' : BuildState} {input : Path} {r : FileReport}
    (h : b.buildFile s input = (r, s')) : b.TellsTargets s.tree input r.targets := by
  by_cases hs : s.cancelled = true
  · rw [buildFile, if_pos hs] at h
    cases h
    exact .inl rfl
  · obtain ⟨ts, hts, hadded⟩ := b.tells_buildInput input ⟨s, .start input, []⟩
    have htargets := targets_buildFile (b := b) (Bool.eq_false_iff.2 hs) input
    rw [h, hadded] at htargets
    exact htargets ▸ hts

end Builder
end ShaderDialect
