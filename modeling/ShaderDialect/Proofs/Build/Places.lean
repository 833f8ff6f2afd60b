import ShaderDialect.Proofs.Build.Passing
import ShaderDialect.Proofs.FileTree.Outcomes
import ShaderDialect.Proofs.Program.Names

/-! Where the files of a build are put: each has a plain name in one of the directories that a
configuration names. -/
namespace ShaderDialect

open List Success

/-- A path is a plain name in a directory. -/
def Path.PlainIn (dir p : Path) : Prop :=
  ∃ name, '/' ∉ name.toList ∧ FileTree.stepOf name = .name name ∧ p = dir.joinName name

namespace Path.PlainIn
variable {dir p : Path} {t : FileTree}

theorem of_ending (dir : Path) {stem ending : String} (hstem : '/' ∉ stem.toList)
    (h : ending ∈ artifactEndings) : dir.PlainIn (dir.joinName (stem ++ ending)) := by
  have hall : ∀ e ∈ artifactEndings, '/' ∉ e.toList ∧ 3 ≤ e.length := by decide
  obtain ⟨hslash, hlength⟩ := hall ending h
  refine ⟨stem ++ ending, by simp [hstem, hslash], FileTree.stepOf_of_length ?_, rfl⟩
  rw [String.length_append]
  omega

theorem keyOf (h : dir.PlainIn p) (t : FileTree) : ∃ name, t.keyOf p = t.keyOf dir ++ [name] := by
  obtain ⟨name, hslash, hname, rfl⟩ := h
  exact ⟨name, t.keyOf_joinName dir hslash hname⟩

theorem start (h : dir.PlainIn p) (t : FileTree) : t.start p = t.start dir := by
  obtain ⟨name, hslash, -, rfl⟩ := h
  exact t.start_joinName dir hslash

theorem way (h : dir.PlainIn p) (t : FileTree) : t.way p <+: t.visited dir := by
  obtain ⟨name, hslash, -, rfl⟩ := h
  exact t.way_joinName dir hslash

theorem named (h : dir.PlainIn p) : ∃ name, p.Named name := by
  obtain ⟨name, hslash, hname, rfl⟩ := h
  obtain ⟨ss, hjoined, -⟩ := dir.segments_joinName hslash
  exact ⟨name, ss, hjoined, hname⟩

end Path.PlainIn

theorem FeatureSet.not_mem_label (s : FeatureSet) {c : Char} (hplus : c ≠ '+')
    (hsymbol : ∀ f : Feature, c ∉ f.symbol.toList) : c ∉ s.label.toList := by
  rw [label, symbols, String.toList_intercalate]
  induction s.toList with
  | nil => simp
  | cons f fs ih =>
    cases fs with
    | nil => simpa using hsymbol f
    | cons g gs =>
      rw [map_cons, map_cons, map_cons, map_cons, intercalate_cons_cons]
      simpa [hplus, hsymbol] using ih

theorem FeatureSet.slash_not_mem_label (s : FeatureSet) : '/' ∉ s.label.toList :=
  s.not_mem_label (by decide) fun f => by cases f <;> decide

namespace Builder
variable {b : Builder} {f : ShaderFile} {os : List Output} {target : Target}

/-- The directories that files are put into which are generated for inputs. -/
def directories (b : Builder) : List Path := b.reflectionDir :: b.config.targets.map b.targetDir

theorem not_mem_variantStem {name : String} (h : '/' ∉ name.toList) (features : FeatureSet) :
    '/' ∉ (variantStem name features).toList := by
  unfold variantStem
  split
  · exact h
  · change '/' ∉ (name ++ "." ++ features.label).toList
    simp [h, features.slash_not_mem_label]

theorem plainIn_planTarget (h : ∀ o ∈ os, '/' ∉ o.name.toList) :
    (b.planTarget f target os).Within (b.targetDir target).PlainIn := by
  have hsource : "." ++ target.sourceExtension ∈ artifactEndings := by cases target <;> decide
  have hinfo : ".meta.json" ∈ artifactEndings := by decide
  have hcontainer : ".fslv" ∈ artifactEndings := by decide
  refine Plan.within_forM fun name hname => Plan.within_bind (Plan.within_foldlM ?_ _) fun c => ?_
  · intro c o ho
    have hstem := not_mem_variantStem (h o (mem_filter.1 ho).1) o.features
    refine Plan.within_bind (Plan.within_ofAnswer _) fun shader =>
      Plan.within_bind (Plan.within_write ?_) fun _ => Plan.within_ofAnswer _
    simp only [forall_mem_cons, not_mem_nil, false_implies, implies_true, and_true]
    refine ⟨?_, .of_ending _ hstem hinfo⟩
    have hplain := Path.PlainIn.of_ending (b.targetDir target) hstem hsource
    rwa [← String.append_assoc] at hplain
  · obtain ⟨o, ho, rfl⟩ := mem_map.1 (Text.mem_nameSet.1 hname)
    have hplain : (Plan.write [((b.targetDir target).joinName s!"{o.name}.fslv",
        c.toBytes)]).Within (b.targetDir target).PlainIn :=
      Plan.within_write fun file hfile => mem_singleton.1 hfile ▸ .of_ending _ (h o ho) hcontainer
    split
    · split
      · exact Plan.within_pure _
      · exact hplain
    · exact hplain

theorem plainIn_generated {t : FileTree} {input : Path}
    (hload : ShaderFile.load t b.config.includePaths input = .ok f)
    (hplain : ∀ os, f.outputs = .ok os → ∀ o ∈ os, '/' ∉ o.name.toList) :
    ∀ file ∈ b.generated f, ∃ dir ∈ b.directories, dir.PlainIn file.1 := by
  have hjson : ".srt.json" ∈ artifactEndings := by decide
  have hheader : ".srt.h" ∈ artifactEndings := by decide
  intro file hfile
  rcases mem_append.1 hfile with hfile | hfile
  · obtain ⟨table, htable, hfile⟩ := mem_flatMap.1 hfile
    have hname : '/' ∉ table.name.toList := by
      intro hmem
      have hword := ShaderFile.isWordRest_tableName hload table htable '/' hmem
      revert hword
      decide
    refine ⟨b.reflectionDir, mem_cons_self, ?_⟩
    simp only [tableFiles, mem_cons, not_mem_nil, or_false] at hfile
    rcases hfile with rfl | rfl
    · exact .of_ending _ hname hjson
    · exact .of_ending _ hname hheader
  · unfold targeted at hfile
    split at hfile
    · next os hos =>
      obtain ⟨target, htarget, hfile⟩ := mem_flatMap.1 hfile
      exact ⟨b.targetDir target, mem_cons_of_mem _ (mem_map_of_mem htarget),
        plainIn_planTarget (hplain os hos) file hfile⟩
    · cases hfile

theorem plainIn_rowPath (b : Builder) (canonical : Path) :
    b.cache.dir.PlainIn (b.cache.rowPath canonical) :=
  ⟨BuildCache.rowName canonical, BuildCache.not_mem_rowName canonical,
    BuildCache.stepOf_rowName canonical, rfl⟩

end Builder
end ShaderDialect
