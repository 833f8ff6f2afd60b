import Mathlib.Data.List.Perm.Basic
import ShaderDialect.Proofs.Build.Clashes
import ShaderDialect.Proofs.Build.Records

/-! Files that outputs of one input overwrite for each other. The files of a target are told apart
by their endings, and those with the same ending by the outputs, unless a name without features
looks like a variant of another, or two names lead to the same place. -/
namespace ShaderDialect

open List Success

theorem Text.nodup_distinct {α : Type} [DecidableEq α] (as : List α) :
    (Text.distinct as).Nodup := by
  induction as with
  | nil => exact nodup_nil
  | cons a as ih => exact nodup_cons.2 ⟨by simp [mem_filter], ih.filter _⟩

theorem Text.nodup_nameSet (names : List String) : (Text.nameSet names).Nodup :=
  (mergeSort_perm _ _).nodup_iff.2 (nodup_distinct names)

theorem pairwise_iff_forall_ne {α : Type} {R : α → α → Prop} {l : List α} (hl : l.Nodup)
    (hsymm : ∀ {x y}, R x y → R y x) : l.Pairwise R ↔ ∀ x ∈ l, ∀ y ∈ l, x ≠ y → R x y := by
  have hinstance : Std.Symm R := ⟨fun _ _ h => hsymm h⟩
  exact ⟨fun h x hx y hy hne => h.forall hx hy hne, hl.pairwise_of_forall_ne⟩

namespace Builder
variable {names : List String} {file : String × String} {name name' : String} {o o' : Output}
  {b : Builder} {target : Target} {os : List Output}

theorem perm_flatMap_filter (hnodup : names.Nodup) (hall : ∀ o ∈ os, o.name ∈ names) :
    (names.flatMap fun name => os.filter (·.name == name)).Perm os := by
  induction names generalizing os with
  | nil =>
    cases os with
    | nil => rfl
    | cons o os => cases hall o mem_cons_self
  | cons name names ih =>
    obtain ⟨hnew, hnodup⟩ := nodup_cons.1 hnodup
    have hrest : names.flatMap (fun n => os.filter (·.name == n)) =
        names.flatMap fun n => (os.filter fun o => !(o.name == name)).filter (·.name == n) := by
      refine flatMap_congr fun n hn => ?_
      rw [filter_filter]
      refine filter_congr fun o _ => ?_
      have hne : n ≠ name := ne_of_mem_of_not_mem hn hnew
      by_cases ho : o.name = n <;> simp [ho, hne]
    rw [flatMap_cons, hrest]
    refine ((ih hnodup ?_).append_left _).trans (filter_append_perm _ _)
    intro o ho
    obtain ⟨hmem, hname⟩ := mem_filter.1 ho
    exact (mem_cons.1 (hall o hmem)).resolve_left (by simpa using hname)

theorem targetFiles_perm : (b.targetFiles target os).Perm
    (os.flatMap (variantFiles target) ++ (Text.nameSet (os.map Output.name)).flatMap fun name =>
      b.nameFiles target name (os.filter (·.name == name))) := by
  have hgroups := perm_flatMap_filter (Text.nodup_nameSet (os.map Output.name))
    fun o ho => Text.mem_nameSet.2 (mem_map_of_mem ho)
  refine (flatMap_append_perm _ _ _).symm.trans (List.Perm.append_right _ ?_)
  rw [← flatMap_assoc]
  exact hgroups.flatMap_right _

def variantEndings (target : Target) : List String := ["." ++ target.sourceExtension, ".meta.json"]

def nameEndings (target : Target) : List String := ["." ++ target.binaryExtension, ".fslv"]

def fileEndings (target : Target) : List String := variantEndings target ++ nameEndings target

theorem ending_of_mem_variantFiles (h : file ∈ os.flatMap (variantFiles target)) :
    file.2 ∈ variantEndings target := by
  obtain ⟨o, -, hfile⟩ := mem_flatMap.1 h
  simp only [variantFiles, mem_cons, not_mem_nil, or_false] at hfile
  rcases hfile with rfl | rfl <;> simp [variantEndings]

theorem ending_of_mem_nameFiles (h : file ∈ b.nameFiles target name os) :
    file.2 ∈ nameEndings target := by
  unfold nameFiles at h
  split at h
  · split at h
    · rw [mem_singleton.1 h]
      simp [nameEndings]
    · cases h
  · rw [mem_singleton.1 h]
    simp [nameEndings]

theorem ending_of_mem_targetFiles :
    ∀ file ∈ b.targetFiles target os, file.2 ∈ fileEndings target := by
  intro file hfile
  refine mem_append.2 ?_
  rcases mem_append.1 (targetFiles_perm.mem_iff.1 hfile) with hfile | hfile
  · exact .inl (ending_of_mem_variantFiles hfile)
  · obtain ⟨name, -, hfile⟩ := mem_flatMap.1 hfile
    exact .inr (ending_of_mem_nameFiles hfile)

theorem append_ending_eq_iff {x x' e e' : String} (he : e ∈ fileEndings target)
    (he' : e' ∈ fileEndings target) : x ++ e = x' ++ e' ↔ x = x' ∧ e = e' := by
  have hapart : ∀ target, ∀ e ∈ fileEndings target, ∀ e' ∈ fileEndings target,
      e.toList <:+ e'.toList → e = e' := by
    intro target
    cases target <;> decide
  constructor
  · intro h
    have hchars : x.toList ++ e.toList = x'.toList ++ e'.toList := by
      rw [← String.toList_append, h, String.toList_append]
    have hsuffix : e.toList <:+ x'.toList ++ e'.toList := ⟨x.toList, hchars⟩
    obtain rfl : e = e' := by
      rcases suffix_or_suffix_of_suffix hsuffix (suffix_append _ _) with h | h
      · exact hapart target e he e' he' h
      · exact (hapart target e' he' e he h).symm
    exact ⟨(String.append_left_inj e).1 h, rfl⟩
  · rintro ⟨rfl, rfl⟩
    rfl

section Views
variable {α : Type} {view : Path → List α} {ofName : String → α}

/-- A name leads to a folder and a file in it. -/
def spot (view : Path → List α) (dir : Path) (name : String) : List α × String :=
  (view (dir.joinName (Path.folder name)), Path.base name)

theorem view_filePath_eq_iff (hview : Path.ShowsFiles view ofName) {file' : String × String}
    (h : file.2 ∈ fileEndings target) (h' : file'.2 ∈ fileEndings target) :
    view (b.filePath target file) = view (b.filePath target file') ↔
      spot view (b.targetDir target) file.1 = spot view (b.targetDir target) file'.1 ∧
        file.2 = file'.2 := by
  have hplain : ∀ target, ∀ e ∈ fileEndings target, '/' ∉ e.toList ∧ 3 ≤ e.length := by
    intro target
    cases target <;> decide
  rw [filePath, filePath, hview.eq_iff _ (hplain target _ h) (hplain target _ h'),
    append_ending_eq_iff h h', spot, spot, Prod.mk.injEq, and_assoc]

/-- Whether names have files of the same kind. -/
def SameKind (b : Builder) (os : List Output) (name name' : String) : Prop :=
  isSingle (os.filter (·.name == name)) = isSingle (os.filter (·.name == name')) ∧
    (isSingle (os.filter (·.name == name)) → b.config.compile)

theorem SameKind.symm (h : b.SameKind os name name') : b.SameKind os name' name :=
  ⟨h.1.symm, fun hs => h.2 (h.1 ▸ hs)⟩

/-- Files with other endings, or in other spots. -/
def Differ (view : Path → List α) (dir : Path) (file file' : String × String) : Prop :=
  spot view dir file.1 = spot view dir file'.1 → file.2 ≠ file'.2

variable {dir : Path}

theorem pairwise_variantFiles_iff : (os.flatMap (variantFiles target)).Pairwise (Differ view dir) ↔
    os.Pairwise fun o o' => spot view dir o.stem ≠ spot view dir o'.stem := by
  have hendings : "." ++ target.sourceExtension ≠ ".meta.json" := by cases target <;> decide
  rw [pairwise_flatMap]
  constructor
  · rintro ⟨-, hpairs⟩
    refine hpairs.imp fun hfiles hspot => ?_
    exact hfiles _ mem_cons_self _ mem_cons_self hspot rfl
  · intro hpairs
    refine ⟨fun o _ => ?_, hpairs.imp fun hne x hx y hy hspot => ?_⟩
    · simpa [variantFiles, Differ] using hendings
    · simp only [variantFiles, mem_cons, not_mem_nil, or_false] at hx hy
      rcases hx with rfl | rfl <;> rcases hy with rfl | rfl <;> exact absurd hspot hne

theorem pairwise_nameFiles_iff :
    (names.flatMap fun name => b.nameFiles target name (os.filter (·.name == name))).Pairwise
        (Differ view dir) ↔
      names.Pairwise fun name name' => b.SameKind os name name' →
        spot view dir name ≠ spot view dir name' := by
  have hendings : "." ++ target.binaryExtension ≠ ".fslv" := by cases target <;> decide
  rw [pairwise_flatMap]
  have hone : ∀ name ∈ names,
      (b.nameFiles target name (os.filter (·.name == name))).Pairwise (Differ view dir) := by
    intro name _
    unfold nameFiles
    split
    · split <;> simp
    · simp
  rw [and_iff_right hone]
  refine List.Pairwise.iff fun {name name'} => ?_
  unfold nameFiles SameKind Differ
  cases isSingle (os.filter (·.name == name)) <;> cases isSingle (os.filter (·.name == name')) <;>
    cases b.config.compile <;> simp [hendings, hendings.symm]

/-- The paths of a target's files differ if those of the sources do, and for names with files of the
same kind those of these files. -/
theorem pairwise_targetFiles_iff (hview : Path.ShowsFiles view ofName) :
    ((b.targetFiles target os).map (b.filePath target)).Pairwise (fun p q => view p ≠ view q) ↔
      os.Pairwise (fun o o' => spot view (b.targetDir target) o.stem ≠
        spot view (b.targetDir target) o'.stem) ∧
      (Text.nameSet (os.map Output.name)).Pairwise fun name name' => b.SameKind os name name' →
        spot view (b.targetDir target) name ≠ spot view (b.targetDir target) name' := by
  have hfiles : (b.targetFiles target os).Pairwise
        (fun x y => view (b.filePath target x) ≠ view (b.filePath target y)) ↔
      (b.targetFiles target os).Pairwise (Differ view (b.targetDir target)) := by
    refine List.Pairwise.iff_of_mem fun {x y} hx hy => ?_
    rw [ne_eq, view_filePath_eq_iff hview (ending_of_mem_targetFiles x hx)
      (ending_of_mem_targetFiles y hy), not_and, Differ]
  have hsymm : ∀ {x y}, Differ view (b.targetDir target) x y →
      Differ view (b.targetDir target) y x :=
    fun h hspot => (h hspot.symm).symm
  rw [pairwise_map, hfiles, targetFiles_perm.pairwise_iff hsymm, pairwise_append,
    pairwise_variantFiles_iff, pairwise_nameFiles_iff]
  have hkinds : ∀ target, ∀ e ∈ variantEndings target, ∀ e' ∈ nameEndings target, e ≠ e' := by
    intro target
    cases target <;> decide
  refine and_congr_right fun _ => and_iff_left fun x hx y hy _ => ?_
  obtain ⟨name, -, hy⟩ := mem_flatMap.1 hy
  exact hkinds target _ (ending_of_mem_variantFiles hx) _ (ending_of_mem_nameFiles hy)

/-- Files of two outputs are the same: two spellings of one name, with features for both or none, or
a name that looks like a variant of the other. -/
def Colliding (view : Path → List α) (dir : Path) (o o' : Output) : Prop :=
  view (dir.joinName (Path.folder o.name)) = view (dir.joinName (Path.folder o'.name)) ∧
    (o.name ≠ o'.name ∧ Path.base o.name = Path.base o'.name ∧
      o.features.isEmpty = o'.features.isEmpty ∨ o.NamedLike o')

theorem spot_stem_eq_iff : spot view dir o.stem = spot view dir o'.stem ↔
    view (dir.joinName (Path.folder o.name)) = view (dir.joinName (Path.folder o'.name)) ∧
      (Path.base o.name = Path.base o'.name ∧ o.features = o'.features ∨ o.NamedLike o' ∨
        o'.NamedLike o) := by
  rw [spot, spot, Prod.mk.injEq, Output.folder_stem, Output.folder_stem, Output.base_stem_eq_iff]

section Nodup
variable (hnodup : (os.map fun o => (o.name, o.features)).Nodup)
include hnodup

theorem isSingle_filter_iff (hname : name ∈ os.map Output.name) :
    isSingle (os.filter (·.name == name)) ↔ ∀ o ∈ os, o.name = name → o.features.isEmpty := by
  have hmem : ∀ o, o ∈ os.filter (·.name == name) ↔ o ∈ os ∧ o.name = name := by simp
  have hfeatures := nodup_filter_iff.2 hnodup name hname
  simp only [← and_imp, ← hmem]
  obtain ⟨o, ho, honame⟩ := mem_map.1 hname
  have hsome := (hmem o).2 ⟨ho, honame⟩
  generalize os.filter (·.name == name) = group at hfeatures hsome
  rcases group with _ | ⟨x, _ | ⟨y, xs⟩⟩
  · cases hsome
  · simp [isSingle]
  · refine iff_of_false (by simp [isSingle]) fun hempty => ?_
    have hsame : x.features = y.features :=
      FeatureSet.eq_of_isEmpty (hempty x (by simp)) (hempty y (by simp))
    simp [hsame] at hfeatures

theorem exists_of_sameKind (hname : name ∈ os.map Output.name) (hname' : name' ∈ os.map Output.name)
    (h : b.SameKind os name name') :
    ∃ o ∈ os, ∃ o' ∈ os, o.name = name ∧ o'.name = name' ∧
      o.features.isEmpty = o'.features.isEmpty := by
  by_cases hs : isSingle (os.filter (·.name == name)) = true
  · have hempty := (isSingle_filter_iff hnodup hname).1 hs
    have hempty' := (isSingle_filter_iff hnodup hname').1 (h.1 ▸ hs)
    obtain ⟨o, ho, rfl⟩ := mem_map.1 hname
    obtain ⟨o', ho', rfl⟩ := mem_map.1 hname'
    exact ⟨o, ho, o', ho', rfl, rfl, (hempty o ho rfl).trans (hempty' o' ho' rfl).symm⟩
  · have hs' : ¬ isSingle (os.filter (·.name == name')) = true := h.1 ▸ hs
    rw [isSingle_filter_iff hnodup hname] at hs
    rw [isSingle_filter_iff hnodup hname'] at hs'
    push Not at hs hs'
    obtain ⟨o, ho, honame, hfeatures⟩ := hs
    obtain ⟨o', ho', honame', hfeatures'⟩ := hs'
    refine ⟨o, ho, o', ho', honame, honame', ?_⟩
    rw [Bool.eq_false_iff.2 hfeatures, Bool.eq_false_iff.2 hfeatures']

theorem sameKind_of_not_isEmpty (ho : o ∈ os) (ho' : o' ∈ os) (h : ¬ o.features.isEmpty)
    (h' : ¬ o'.features.isEmpty) : b.SameKind os o.name o'.name := by
  have hnot : ∀ {o}, o ∈ os → ¬ o.features.isEmpty →
      isSingle (os.filter (·.name == o.name)) = false := by
    intro o ho h
    refine Bool.eq_false_iff.2 fun hs => h ?_
    exact (isSingle_filter_iff hnodup (mem_map_of_mem ho)).1 hs o ho rfl
  refine ⟨(hnot ho h).trans (hnot ho' h').symm, fun hs => ?_⟩
  rw [hnot ho h] at hs
  cases hs

/-- The paths of a target's files differ exactly if no two of its outputs collide. -/
theorem pairwise_targetFiles_iff_not_colliding (hview : Path.ShowsFiles view ofName) :
    ((b.targetFiles target os).map (b.filePath target)).Pairwise (fun p q => view p ≠ view q) ↔
      ∀ o ∈ os, ∀ o' ∈ os, ¬ Colliding view (b.targetDir target) o o' := by
  rw [pairwise_targetFiles_iff hview, pairwise_iff_forall_ne (hnodup.of_map _) fun h => h.symm,
    pairwise_iff_forall_ne (Text.nodup_nameSet _) fun h hkind => (h hkind.symm).symm]
  simp only [Text.mem_nameSet]
  constructor
  · rintro ⟨hstems, hnames⟩ o ho o' ho' ⟨hfolder, ⟨hne, hbase, hkind⟩ | hlike⟩
    · have hdiffer : o ≠ o' := fun h => hne (congrArg Output.name h)
      by_cases hempty : o.features.isEmpty = true
      · have hfeatures : o.features = o'.features :=
          FeatureSet.eq_of_isEmpty hempty (hkind ▸ hempty)
        exact hstems o ho o' ho' hdiffer (spot_stem_eq_iff.2 ⟨hfolder, .inl ⟨hbase, hfeatures⟩⟩)
      · have hsame := sameKind_of_not_isEmpty (b := b) hnodup ho ho' hempty (hkind ▸ hempty)
        exact hnames o.name (mem_map_of_mem ho) o'.name (mem_map_of_mem ho') hne hsame
          (Prod.ext hfolder hbase)
    · have hdiffer : o ≠ o' := by
        rintro rfl
        exact hlike.2.1 hlike.1
      exact hstems o ho o' ho' hdiffer (spot_stem_eq_iff.2 ⟨hfolder, .inr (.inl hlike)⟩)
  · intro hapart
    constructor
    · intro o ho o' ho' hne hspot
      obtain ⟨hfolder, ⟨hbase, hfeatures⟩ | hlike | hlike⟩ := spot_stem_eq_iff.1 hspot
      · have hname : o.name ≠ o'.name := fun hname =>
          hne (inj_on_of_nodup_map hnodup ho ho' (by rw [hname, hfeatures]))
        exact hapart o ho o' ho' ⟨hfolder, .inl ⟨hname, hbase, by rw [hfeatures]⟩⟩
      · exact hapart o ho o' ho' ⟨hfolder, .inr hlike⟩
      · exact hapart o' ho' o ho ⟨hfolder.symm, .inr hlike⟩
    · intro name hname name' hname' hne hsame hspot
      obtain ⟨o, ho, o', ho', rfl, rfl, hkind⟩ := exists_of_sameKind hnodup hname hname' hsame
      obtain ⟨hfolder, hbase⟩ := Prod.mk.inj hspot
      exact hapart o ho o' ho' ⟨hfolder, .inl ⟨hne, hbase, hkind⟩⟩

end Nodup

theorem colliding_iff_of_not_mem (h : '/' ∉ o.name.toList) (h' : '/' ∉ o'.name.toList) :
    Colliding view dir o o' ↔
      o.features.isEmpty ∧ ¬ o'.features.isEmpty ∧
      o.name = o'.name ++ "." ++ o'.features.label := by
  simp only [Colliding, Output.NamedLike, Path.folder_of_not_mem h, Path.folder_of_not_mem h',
    Path.base_of_not_mem h, Path.base_of_not_mem h', true_and]
  exact or_iff_right fun hspellings => hspellings.1 hspellings.2.1

end Views
end Builder

def FileReport.artifactsFor (r : FileReport) (target : Target) : List Path :=
  (r.targets.filter (·.target == target)).flatMap TargetReport.artifacts

theorem FileReport.artifactsFor_of_count {r : FileReport} {t : TargetReport} (ht : t ∈ r.targets)
    (honce : (r.targets.map TargetReport.target).count t.target = 1) :
    r.artifactsFor t.target = t.artifacts := by
  have hlength : (r.targets.filter (·.target == t.target)).length = 1 := by
    rw [← countP_eq_length_filter, ← honce, List.count, countP_map]
    rfl
  obtain ⟨t', ht'⟩ := length_eq_one_iff.1 hlength
  have hmem : t ∈ r.targets.filter (·.target == t.target) := by simp [ht]
  rw [ht', mem_singleton] at hmem
  rw [artifactsFor, ht', flatMap_singleton, hmem]

namespace Builder
variable {b : Builder}

open Building

/-- The files that are listed for a target which is built are different ones exactly if no two
outputs of the input collide. If names have no slash, outputs collide only if one without features
is named like a variant of another. -/
theorem artifactsFor_pairwise_iff {s s' : BuildState} {input : Path} {r : FileReport}
    {t : TargetReport} (hr : b.buildFile s input = (r, s')) (ht : t ∈ r.targets)
    (hbuilt : t.status = .built) (honce : b.config.targets.count t.target = 1) :
    ∃ f os, ShaderFile.load s.tree b.config.includePaths input = .ok f ∧ f.outputs = .ok os ∧
      ((r.artifactsFor t.target).Pairwise (fun p q => p.same q = false) ↔
        ∀ o ∈ os, ∀ o' ∈ os, ¬ Colliding Path.components (b.targetDir t.target) o o') ∧
      ((r.artifactsFor t.target).Pairwise (fun p q => s.tree.keyOf p ≠ s.tree.keyOf q) ↔
        ∀ o ∈ os, ∀ o' ∈ os, ¬ Colliding s.tree.keyOf (b.targetDir t.target) o o') ∧
      ((∀ o ∈ os, '/' ∉ o.name.toList) →
        ((r.artifactsFor t.target).Pairwise (fun p q => s.tree.keyOf p ≠ s.tree.keyOf q) ↔
          ∀ o ∈ os, ∀ o' ∈ os, o.features.isEmpty → ¬ o'.features.isEmpty →
            o.name ≠ o'.name ++ "." ++ o'.features.label)) := by
  rcases tellsTargets_buildFile hr with hnone | ⟨f, os, hload, hos, htargets, hrecorded⟩
  · rw [hnone] at ht
    cases ht
  obtain ⟨hfiles, hnodup⟩ := hrecorded t ht hbuilt
  have hpaths :
      r.artifactsFor t.target = (b.targetFiles t.target os).map (b.filePath t.target) := by
    rw [← hfiles]
    exact FileReport.artifactsFor_of_count ht (htargets ▸ honce)
  have hsame : ∀ p q : Path, p.same q = false ↔ p.components ≠ q.components := by
    intro p q
    rw [← Bool.not_eq_true, Path.same_iff]
  have hkeys : ((b.targetFiles t.target os).map (b.filePath t.target)).Pairwise
      (fun p q => s.tree.keyOf p ≠ s.tree.keyOf q) ↔ _ :=
    pairwise_targetFiles_iff_not_colliding hnodup (Path.showsFiles_keyOf s.tree)
  refine ⟨f, os, hload, hos, ?_, ?_, fun hplain => ?_⟩
  · simp only [hpaths, hsame]
    exact pairwise_targetFiles_iff_not_colliding hnodup Path.showsFiles_components
  · rw [hpaths]
    exact hkeys
  · rw [hpaths, hkeys]
    refine forall₂_congr fun o ho => forall₂_congr fun o' ho' => ?_
    rw [colliding_iff_of_not_mem (hplain o ho) (hplain o' ho'), not_and, not_and]

/-- An input without tables is reported on as built if its only target is. -/
theorem mem_targets_buildFile {tree : FileTree} {input canonical : Path} {f : ShaderFile}
    {fp : String} {os : List Output} {target : Target} {w : FileWork}
    (htargets : b.config.targets = [target]) (hincremental : b.config.incremental = false)
    (hcanonical : tree.canonical input = .ok canonical)
    (hload : ShaderFile.load tree b.config.includePaths input = .ok f)
    (hprint : Fingerprint.ofFiles tree f.source.dependencies = .ok fp)
    (htables : f.tables.tables = []) (hfaults : f.tables.faults = []) (hos : f.outputs = .ok os)
    (hbuilt : (b.buildTarget f os target).after ⟨.ofTree tree, .start input, []⟩ = (.ok (), w)) :
    ⟨target, .built, w.artifacts⟩ ∈ (b.buildFile (.ofTree tree) input).1.targets := by
  have hproduce : (b.produce input).after ⟨.ofTree tree, .start input, []⟩ =
      (.ok (f, fp), { w with report := w.report.addTargets [⟨target, .built, w.artifacts⟩] }) := by
    have htarget :
        (b.config.targets.forM (b.reportTarget f os)).after ⟨.ofTree tree, .start input, []⟩ =
        (.ok (), { w with report := w.report.addTargets [⟨target, .built, w.artifacts⟩] }) := by
      rw [htargets, after_forM_cons, after_reportTarget, hbuilt]
      rfl
    rw [produce, after_bind_of_ok after_checkCancelled,
      after_bind_of_ok (by rw [after_readFile, hload]),
      after_bind_of_ok (by rw [after_fingerprint, hprint]), after_bind_of_ok (after_addFaults _),
      htables, hfaults]
    change after (ExceptT.mk (pure f.outputs) >>= _) ⟨.ofTree tree, .start input, []⟩ = _
    rw [after_bind_of_ok (by rw [after_lift, hos]), after_bind_of_ok htarget]
    rfl
  have hinput : (b.buildInput input).after ⟨.ofTree tree, .start input, []⟩ =
      (b.conclude canonical f fp).after
        { w with report := w.report.addTargets [⟨target, .built, w.artifacts⟩] } := by
    have htree : (BuildState.ofTree tree).tree = tree := rfl
    rw [buildInput, after_get_bind]
    simp only [htree, hcanonical]
    rw [after_get_bind]
    simp only [hincremental, Bool.false_and, Bool.false_eq_true, if_false]
    rw [rebuild_eq, after_bind_of_ok hproduce]
  rw [targets_buildFile rfl, hinput, keeps_conclude canonical fp]
  simp [reported, FileReport.addTargets]

/-- A variant of one shader, and another shader that is named like it. -/
def namedLikeVariant : FileTree :=
  ⟨[], [(["a"], .file (Text.utf8
    "#comp FT_VRS c\nNUM_THREADS(1,1,1)\nvoid CS_MAIN()\x7bINIT_MAIN;RETURN();\x7d\n#end
#comp c.FT_VRS\nNUM_THREADS(2,1,1)\nvoid CS_MAIN()\x7bINIT_MAIN;RETURN();\x7d\n#end") false)]⟩

def vulkanSources : Builder :=
  ⟨{ BuildConfig.standard with targets := [.vulkan], compile := false, incremental := false }, []⟩

theorem namedLikeVariant_read : ∃ f fp os, ShaderFile.load namedLikeVariant [] ⟨"a"⟩ = .ok f ∧
    Fingerprint.ofFiles namedLikeVariant f.source.dependencies = .ok fp ∧ f.tables.tables = [] ∧
    f.tables.faults = [] ∧ f.outputs = .ok os ∧
    os.map (fun o => (o.name, o.features)) = [("c", .ofList [.vrs]), ("c.FT_VRS", .empty)] ∧
    ((["c", "c.FT_VRS"].forM fun name => vulkanSources.buildGroup f .vulkan name
      (os.filter (·.name == name))).after ⟨.ofTree namedLikeVariant, .start ⟨"a"⟩, []⟩).1 =
      .ok () := by
  have heval : (do
      let f ← ShaderFile.load namedLikeVariant [] ⟨"a"⟩
      let _ ← Fingerprint.ofFiles namedLikeVariant f.source.dependencies
      let os ← f.outputs
      let _ ← ((["c", "c.FT_VRS"].forM fun name => vulkanSources.buildGroup f .vulkan name
        (os.filter (·.name == name))).after ⟨.ofTree namedLikeVariant, .start ⟨"a"⟩, []⟩).1
      return (f.tables.tables.length, f.tables.faults.length,
        os.map fun o => (o.name, o.features)) :
        Except Failure (Nat × Nat × List (String × FeatureSet))) =
      .ok (0, 0, [("c", .ofList [.vrs]), ("c.FT_VRS", .empty)]) := by
    decide +kernel
  simp only [bind_eq_ok, pure_eq_ok, Prod.mk.injEq, length_eq_zero_iff] at heval
  obtain ⟨f, hload, fp, hprint, os, hos, ⟨⟩, hgroups, htables, hfaults, hmap⟩ := heval
  exact ⟨f, fp, os, hload, hprint, htables, hfaults, hos, hmap, hgroups⟩

theorem exists_built_namedLikeVariant :
    ∃ t ∈ (vulkanSources.buildFile (.ofTree namedLikeVariant) ⟨"a"⟩).1.targets,
      t.target = .vulkan ∧ t.status = .built := by
  obtain ⟨f, fp, os, hload, hprint, htables, hfaults, hos, hmap, hgroups⟩ := namedLikeVariant_read
  have hnames : Text.nameSet (os.map Output.name) = ["c", "c.FT_VRS"] := by
    have hnames := congrArg (List.map Prod.fst) hmap
    rw [map_map] at hnames
    have hdistinct : Text.distinct ["c", "c.FT_VRS"] = ["c", "c.FT_VRS"] := by decide
    exact (congrArg Text.nameSet hnames).trans
      ((congrArg Text.sortNames hdistinct).trans (mergeSort_of_pairwise (by decide)))
  obtain ⟨w, hbuilt⟩ : ∃ w, (vulkanSources.buildTarget f os .vulkan).after
      ⟨.ofTree namedLikeVariant, .start ⟨"a"⟩, []⟩ = (.ok (), w) := by
    rw [buildTarget, hnames]
    exact ⟨_, Prod.ext hgroups rfl⟩
  have hcanonical : namedLikeVariant.canonical ⟨"a"⟩ = .ok ⟨"/a"⟩ := by decide +kernel
  exact ⟨_, mem_targets_buildFile rfl rfl hcanonical hload hprint htables hfaults hos hbuilt, rfl,
    rfl⟩

/-- Both outputs are built, and the second overwrites what is written for the first. -/
theorem artifactsFor_pairwise_iff_namedLikeVariant : ∃ r s',
    vulkanSources.buildFile (.ofTree namedLikeVariant) ⟨"a"⟩ = (r, s') ∧
      (∃ t ∈ r.targets, t.target = .vulkan ∧ t.status = .built) ∧
      ¬ (r.artifactsFor .vulkan).Pairwise fun p q => p.same q = false := by
  obtain ⟨r, s', hr⟩ : ∃ r s', vulkanSources.buildFile (.ofTree namedLikeVariant) ⟨"a"⟩ = (r, s') :=
    ⟨_, _, Prod.mk.eta.symm⟩
  obtain ⟨t, ht, htarget, hbuilt⟩ := exists_built_namedLikeVariant
  rw [hr] at ht
  refine ⟨r, s', hr, ⟨t, ht, htarget, hbuilt⟩, fun hpairs => ?_⟩
  have honce : vulkanSources.config.targets.count t.target = 1 := by
    rw [htarget]
    decide
  obtain ⟨f, os, hload, hos, hiff, -⟩ := artifactsFor_pairwise_iff hr ht hbuilt honce
  obtain ⟨f', -, os', hload', -, -, -, hos', hmap, -⟩ := namedLikeVariant_read
  cases hload.symm.trans hload'
  cases hos.symm.trans hos'
  obtain ⟨variant, os, rfl, hvariant, hrest⟩ := map_eq_cons_iff.1 hmap
  obtain ⟨plain, os, rfl, hplain, -⟩ := map_eq_cons_iff.1 hrest
  obtain ⟨hname, hfeatures⟩ := Prod.mk.inj hvariant
  obtain ⟨hname', hfeatures'⟩ := Prod.mk.inj hplain
  refine hiff.1 (htarget ▸ hpairs) plain (by simp) variant (by simp) ?_
  rw [colliding_iff_of_not_mem (by rw [hname']; decide) (by rw [hname]; decide), hname, hname',
    hfeatures, hfeatures']
  decide

end Builder
end ShaderDialect
