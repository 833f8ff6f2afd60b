import ShaderDialect.Proofs.Build.History
import ShaderDialect.Proofs.FileTree.Replacing
import ShaderDialect.Proofs.Source.Locality

/-! Inputs that are found up to date. What is on disk is what a build from scratch would write there
exactly if nothing has been written over it since the input was last built with success. -/
namespace ShaderDialect

open Fingerprint List Success

variable {p : Path} {f : ShaderFile}

/-- A file is determined by the files that it is read from and by what their includes find. -/
theorem ShaderFile.load_agrees {t t' : FileTree} {paths : List Path} (h : load t paths p = .ok f)
    (hA : Source.Agrees t t' paths f.source.dependencies) (hc : t'.canonical p = t.canonical p) :
    load t' paths p = .ok f := by
  simp only [load, bind_eq_ok] at h ⊢
  obtain ⟨source, hs, hf⟩ := h
  obtain rfl : f.source = source := by
    simp only [ofSource, bind_eq_ok, pure_eq_ok] at hf
    obtain ⟨_, -, _, -, rfl⟩ := hf
    rfl
  exact ⟨_, Source.load_agrees hs hA hc, hf⟩

namespace Builder
variable {row : CacheRow}

open Building

/-- Every artifact that a build from scratch writes is there with the bytes that it writes. -/
def Sound (b : Builder) (t : FileTree) (input : Path) : Prop :=
  ∀ r ∈ (b.runOn false t [input]).1.files, ∀ p ∈ r.artifacts,
    ∃ content, t.read p = .ok content ∧ (b.runOn false t [input]).2.read p = .ok content

section Alone
variable {b : Builder} {incremental : Bool} {t t' : FileTree} {input : Path} {r : FileReport}

theorem runOn_singleton
    (h : (b.withIncremental incremental).buildFile (.ofTree t) input = (r, .ofTree t')) :
    b.runOn incremental t [input] = (⟨[r], [], false⟩, t') := by
  simp [runOn, run, buildFiles, h, rejectShared, sharedFaults, clashes]
  exact ⟨⟨rfl, rfl⟩, rfl⟩

theorem moments_singleton
    (h : (b.withIncremental incremental).buildFile (.ofTree t) input = (r, .ofTree t')) :
    b.moments incremental t [input] = [⟨.build input r, t, t'⟩, ⟨.reject, t', t'⟩] := by
  rw [moments, runOn_singleton h]
  simp [buildMoments, buildFiles, h]
  rfl

theorem exists_runOn_singleton (hc : b.config.compile = false) (incremental : Bool) (t : FileTree)
    (input : Path) :
    ∃ r t', b.Outcome incremental t input r t' ∧
      b.runOn incremental t [input] = (⟨[r], [], false⟩, t') := by
  obtain ⟨r, t', h, ho⟩ := buildFile_outcome hc incremental t input
  exact ⟨r, t', ho, runOn_singleton h⟩

theorem read_of_record (h : b.cache.record t row = .ok t') (hp : p.IsArtifact)
    {content : List UInt8} (hr : t.read p = .ok content) : t'.read p = .ok content :=
  (FileTree.place_puts h).1.read_of_ne (BuildCache.keyOf_ne_rowPath hp _ _ _) hr

end Alone

section Scratch
variable {b : Builder} {t t₂ u u₁ : FileTree} {x : Build} {canonical : Path} {fp : String}

/-- A build from scratch lists the artifacts of a file without fault and leaves them as they have
been put in place, whether or not it can be recorded. -/
theorem runOn_of_faultless (hc : b.config.compile = false) {input : Path} {os : List Output}
    (hf : b.Faultless f os) (hcan : u.canonical input = .ok canonical)
    (hload : ShaderFile.load u b.config.includePaths input = .ok f)
    (hprint : ofFiles u f.source.dependencies = .ok fp)
    (hu : u.placeAll (b.generated f) = .ok u₁) :
    ∃ r u₂, b.runOn false u [input] = (⟨[r], [], false⟩, u₂) ∧
      r.artifacts = (b.generated f).map Prod.fst ∧
      ∀ p ∈ (b.generated f).map Prod.fst, ∀ content, u₁.read p = .ok content →
        u₂.read p = .ok content := by
  obtain ⟨r, hreport, hbuild⟩ := @buildFile_eq (b.withIncremental false) hc rfl u input
  rw [task_withIncremental] at hreport hbuild
  rcases finish_task_of_load hcan hload hprint with ⟨os', u', hf', hall, hfinish⟩ | ⟨hnot, -⟩
  · cases hu.symm.trans hall
    rw [hfinish] at hreport hbuild
    have hs : (b.reportOn f input os').succeeded = true := (succeeded_reportOn input).2 hf'.faults
    have hartifacts := artifacts_reportOn hf'.outputs (b := b) input
    rcases finish_recordTask (x := ⟨input, canonical, f, fp, b.reportOn f input os'⟩) hs u₁ with
      ⟨u₂, hrecord, hfinish⟩ | ⟨e, -, hfinish⟩ <;> rw [hfinish] at hreport hbuild <;> cases hreport
    · exact ⟨_, u₂, runOn_singleton hbuild, hartifacts, fun p hp content hr =>
        read_of_record hrecord (b.mem_artifacts_generated f p hp) hr⟩
    · exact ⟨_, u₁, runOn_singleton hbuild, hartifacts, fun p hp content hr => hr⟩
  · exact absurd hu (hnot os hf u₁)

/-- What a build has put in place is what another build of the same file puts there. -/
theorem read_eq_of_placeAll (hx : b.Constructs t x t₂) (hcwd : u.cwd = t.cwd)
    (hu : u.placeAll (b.generated x.file) = .ok u₁) :
    ∀ p ∈ x.report.artifacts, ∃ content, t₂.read p = .ok content ∧ u₁.read p = .ok content := by
  intro p hp
  rw [hx.artifacts] at hp
  obtain ⟨t₁, ht, hrecord⟩ := hx.recorded
  obtain ⟨content, hr, hr'⟩ := FileTree.read_placeAll hcwd ht hu (.inr hp)
  exact ⟨content, read_of_record hrecord (b.mem_artifacts_generated x.file p hp) hr, hr'⟩

theorem exists_read_of_constructs (hx : b.Constructs t x t₂) :
    ∀ p ∈ x.report.artifacts, ∃ content, t₂.read p = .ok content := by
  intro p hp
  obtain ⟨t₁, ht, -⟩ := hx.recorded
  obtain ⟨content, hr, -⟩ := read_eq_of_placeAll hx rfl ht p hp
  exact ⟨content, hr⟩

/-- After a build, a tree that reads as the same file is sound if it has the artifacts of the build;
and only then, if building from scratch succeeds there. -/
theorem sound_iff_of_load (hc : b.config.compile = false) (hx : b.Constructs t x t₂)
    (hcwd : u.cwd = t.cwd) (hcan : u.canonical x.input = .ok canonical)
    (hload : ShaderFile.load u b.config.includePaths x.input = .ok x.file)
    (hprint : ∃ fp', ofFiles u x.sources = .ok fp') :
    ((∀ p ∈ x.report.artifacts, u.read p = t₂.read p) → b.Sound u x.input ∧
        ∀ r' ∈ (b.runOn false u [x.input]).1.files, r'.artifacts = x.report.artifacts) ∧
      ((∀ r' ∈ (b.runOn false u [x.input]).1.files, r'.succeeded = true) → b.Sound u x.input →
        ∀ p ∈ x.report.artifacts, u.read p = t₂.read p) := by
  obtain ⟨os, hf, -⟩ := hx.faultless
  obtain ⟨fp', hprint⟩ := hprint
  constructor
  · intro hkept
    have hfiles : ∀ p ∈ (b.generated x.file).map Prod.fst, u.isFile p = true := fun p hp => by
      rw [← hx.artifacts] at hp
      obtain ⟨content, hr⟩ := exists_read_of_constructs hx p hp
      exact FileTree.isFile_iff.2 ⟨content, (hkept p hp).trans hr⟩
    obtain ⟨u₁, hu⟩ := FileTree.placeAll_of_isFile
      (fun p hp => (b.mem_artifacts_generated x.file p hp).named) hfiles
    obtain ⟨r', u₂, hrun, hr', hread⟩ := runOn_of_faultless hc hf hcan hload hprint hu
    rw [← hx.artifacts] at hr' hread
    rw [Sound, hrun, forall_mem_singleton, forall_mem_singleton, hr']
    refine ⟨fun p hp => ?_, rfl⟩
    obtain ⟨content, ht₂, hu₁⟩ := read_eq_of_placeAll hx hcwd hu p hp
    exact ⟨content, (hkept p hp).trans ht₂, hread p hp content hu₁⟩
  · intro hsucceeds hsound p hp
    have hu : ∃ u₁, u.placeAll (b.generated x.file) = .ok u₁ := by
      obtain ⟨r', u₂, ho, hrun⟩ := exists_runOn_singleton hc false u x.input
      rw [hrun, forall_mem_singleton] at hsucceeds
      cases ho with
      | hit hskip => cases hskip
      | failed _ hs => cases hsucceeds.symm.trans hs
      | built hinput hy =>
        have hload' := hy.load
        rw [hinput] at hload'
        rw [Except.ok.inj (hload.symm.trans hload')]
        exact hy.recorded.imp fun _ h => h.1
    obtain ⟨u₁, hu⟩ := hu
    obtain ⟨r', u₂, hrun, hr', hread⟩ := runOn_of_faultless hc hf hcan hload hprint hu
    rw [← hx.artifacts] at hr' hread
    rw [Sound, hrun, forall_mem_singleton, hr'] at hsound
    obtain ⟨content, hu', hu₂⟩ := hsound p hp
    obtain ⟨content', ht₂, hu₁⟩ := read_eq_of_placeAll hx hcwd hu p hp
    rw [hread p hp content' hu₁] at hu₂
    cases hu₂
    exact hu'.trans ht₂.symm

end Scratch

/-- What is hashed at a moment: the files of an input's row, when it is found up to date, and the
files of an input, when it is built. -/
inductive Hashes (b : Builder) (m : Moment) (bytes : List UInt8) : Prop
  | row {input canonical : Path} {r : FileReport} {row : CacheRow} : m.event = .build input r →
      r.cached = true → m.before.canonical input = .ok canonical →
      b.cache.load m.before canonical = some row →
      Fingerprint.stream m.before row.dependencies = .ok bytes → Hashes b m bytes
  | sources {input : Path} {r : FileReport} {f : ShaderFile} : m.event = .build input r →
      r.cached = false → ShaderFile.load m.before b.config.includePaths input = .ok f →
      Fingerprint.stream m.before f.source.dependencies = .ok bytes → Hashes b m bytes

/-- Whatever is hashed at some moments has a length of 64 bits, and fingerprints tell it apart. -/
structure Discerning (b : Builder) (ms : List Moment) : Prop where
  length : ∀ m ∈ ms, ∀ bytes, b.Hashes m bytes → bytes.length < 256 ^ 8
  injective : ∀ m ∈ ms, ∀ m' ∈ ms, ∀ bytes bytes', b.Hashes m bytes → b.Hashes m' bytes' →
    Fingerprint.ofBytes bytes = Fingerprint.ofBytes bytes' → bytes = bytes'

def CacheEmpty (b : Builder) (t : FileTree) : Prop :=
  ∀ name k, t.node? (t.keyOf b.config.cachePath ++ name :: k) = none

namespace LastBuild
variable {b : Builder} {ms : List Moment} {canonical : Path}

/-- In a tree the input is still found, its files are as they were when it was looked at, and their
includes are found where they were when it was built. -/
structure SourcesKept (l : b.LastBuild ms canonical) (seen t : FileTree) : Prop where
  found : t.canonical l.build.input = .ok l.build.canonical
  contents : ∀ p ∈ l.build.sources, t.read p = seen.read p
  searches : Source.SearchesAgree l.moment.before t b.config.includePaths l.build.sources

/-- In a tree the artifacts are as the build left them. -/
def ArtifactsKept (l : b.LastBuild ms canonical) (t : FileTree) : Prop :=
  ∀ p ∈ l.build.report.artifacts, t.read p = l.moment.after.read p

theorem mem (l : b.LastBuild ms canonical) : l.moment ∈ ms := by
  obtain ⟨earlier, m, since, x, rfl, -, -⟩ := l
  exact mem_append_right _ mem_cons_self

end LastBuild

section Recorded
variable {b : Builder} {m : Moment} {x : Build}

theorem load_of_completes (hc : b.config.compile = false) (h : b.Happens m) (hx : b.Completes m x) :
    b.cache.load m.after x.canonical = some (x.row b) := by
  obtain ⟨t₁, -, hrecord⟩ := (h.constructs hc hx).recorded
  obtain ⟨hputs, hres⟩ := FileTree.place_puts hrecord
  have hread := CacheRow.read?_of_read (hputs.read_of_eq rfl hres)
  exact Option.filter_eq_some_iff.2 ⟨hread, by simp [Path.same, Build.row, rowOf]⟩

/-- An input that has just been built is up to date, unless the build has written over its
sources. -/
theorem isFresh_of_completes (hc : b.config.compile = false) (h : b.Happens m)
    (hx : b.Completes m x) (hs : ∀ p ∈ x.sources, m.after.read p = m.before.read p) :
    b.cache.isFresh m.after x.canonical b.arguments = true := by
  refine BuildCache.isFresh_iff.2 ⟨x.row b, load_of_completes hc h hx, rfl, fun p hp => ?_,
    (ofFiles_congr hs).trans hx.fingerprint⟩
  obtain ⟨content, hr⟩ := exists_read_of_constructs (h.constructs hc hx) p hp
  rw [FileTree.pathExists, (FileTree.read_eq_ok.1 hr).1]
  rfl

theorem exists_skipped (hc : b.config.compile = false) (h : b.Happens m) (hx : b.Completes m x)
    (hcan : m.after.canonical x.input = .ok x.canonical)
    (hs : ∀ p ∈ x.sources, m.after.read p = m.before.read p) :
    ∃ r, (b.withIncremental true).buildFile (.ofTree m.after) x.input = (r, .ofTree m.after) ∧
      r.cached = true :=
  ⟨_, buildFile_of_isFresh hcan (isFresh_of_completes hc h hx hs), rfl⟩

/-- An input that is built and then skipped is hashed twice, as the same bytes. -/
theorem discerning_of_unchanged (hc : b.config.compile = false) (h : b.Happens m)
    (hx : b.Completes m x) (hcan : m.after.canonical x.input = .ok x.canonical)
    (hs : ∀ p ∈ x.sources, m.after.read p = m.before.read p) {bytes : List UInt8}
    (hbytes : stream m.before x.sources = .ok bytes) (hl : bytes.length < 256 ^ 8)
    {r : FileReport} (hr : r.cached = true) :
    b.Discerning [m, ⟨.reject, m.after, m.after⟩, ⟨.build x.input r, m.after, m.after⟩,
      ⟨.reject, m.after, m.after⟩] := by
  have hfirst : ∀ bytes', b.Hashes m bytes' → bytes' = bytes := by
    rintro bytes' (⟨he, hcached, -, -, -⟩ | ⟨he, -, hload, hstream⟩)
    · cases hx.event.symm.trans he
      cases hx.rebuilt.symm.trans hcached
    · cases hx.event.symm.trans he
      cases Except.ok.inj (hx.load.symm.trans hload)
      exact Except.ok.inj (hstream.symm.trans hbytes)
  have hsecond : ∀ bytes', b.Hashes ⟨.build x.input r, m.after, m.after⟩ bytes' →
      bytes' = bytes := by
    rintro bytes' (⟨he, -, hcan', hrow, hstream⟩ | ⟨he, hcached, -, -⟩)
    · cases he
      cases Except.ok.inj (hcan.symm.trans hcan')
      rw [load_of_completes hc h hx, Option.some.injEq] at hrow
      subst hrow
      exact Except.ok.inj (hstream.symm.trans ((stream_congr hs).trans hbytes))
    · cases he
      cases hr.symm.trans hcached
  have hreject : ∀ bytes', b.Hashes ⟨.reject, m.after, m.after⟩ bytes' → bytes' = bytes := by
    rintro bytes' (⟨he, -, -, -, -⟩ | ⟨he, -, -, -⟩) <;> cases he
  have hall : ∀ m' ∈ [m, ⟨.reject, m.after, m.after⟩, ⟨.build x.input r, m.after, m.after⟩,
      ⟨.reject, m.after, m.after⟩], ∀ bytes', b.Hashes m' bytes' → bytes' = bytes := by
    simp only [forall_mem_cons]
    exact ⟨hfirst, hreject, hsecond, hreject, by simp⟩
  exact ⟨fun m' hm' bytes' h => hall m' hm' bytes' h ▸ hl,
    fun m₁ h₁ m₂ h₂ bytes₁ bytes₂ hh₁ hh₂ _ => (hall m₁ h₁ _ hh₁).trans (hall m₂ h₂ _ hh₂).symm⟩

end Recorded

section Skipping
variable {b : Builder} {t₀ t : FileTree} {ms : List Moment} {canonical : Path}

/-- The row of an input that can be loaded is that of its last build that succeeded. -/
theorem lastBuild_of_load (hc : b.config.compile = false) (hempty : b.CacheEmpty t₀)
    (h : b.Leads t₀ ms t) (hrow : b.cache.load t canonical = some row) :
    ∃ l : b.LastBuild ms canonical, row = l.build.row b ∧
      l.build.canonical.same canonical = true := by
  obtain ⟨hread, hsame⟩ := Option.filter_eq_some_iff.1 hrow
  obtain ⟨bytes, hbytes⟩ := CacheRow.exists_read_of_read? hread
  obtain ⟨-, x, hn⟩ := FileTree.read_eq_ok.1 hbytes
  rw [FileTree.keyOf_congr (h.cwd hc).1] at hn
  rcases h.row hc hn with ⟨hstart, -⟩ | ⟨l, rfl⟩
  · rw [BuildCache.keyOf_rowPath] at hstart
    cases (hempty _ []).symm.trans hstart
  · rw [CacheRow.read?_of_read hbytes, Option.some.injEq] at hread
    subst hread
    exact ⟨l, rfl, hsame⟩

/-- Files whose fingerprint is that of a build read as they did then. -/
theorem read_eq_of_isFresh (hd : b.Discerning ms) {m m' : Moment} (hm : m ∈ ms) (hm' : m' ∈ ms)
    {x : Build} (hx : b.Completes m x) {input : Path} {r : FileReport}
    (hevent : m'.event = .build input r) (hcached : r.cached = true)
    (hcan : m'.before.canonical input = .ok canonical)
    (hrow : b.cache.load m'.before canonical = some (x.row b))
    (hprint : ofFiles m'.before x.sources = .ok x.fingerprint) :
    ∀ p ∈ x.sources, ∃ content, m.before.read p = .ok content ∧ m'.before.read p = .ok content := by
  have hprint₀ := hx.fingerprint
  rw [ofFiles, map_eq_ok] at hprint hprint₀
  obtain ⟨bytes, hs, hb⟩ := hprint
  obtain ⟨bytes₀, hs₀, hb₀⟩ := hprint₀
  have hh : b.Hashes m' bytes := .row hevent hcached hcan hrow hs
  obtain rfl : bytes₀ = bytes := hd.injective m hm m' hm' bytes₀ bytes
    (.sources hx.event hx.rebuilt hx.load hs₀) hh (hb₀.trans hb.symm)
  exact read_eq_of_stream (hd.length m' hm' bytes₀ hh) hs₀ hs

/-- An input that a run reports as up to date goes back to the last build of its file that
succeeded. If its sources are left alone until the run ends, what is on disk then is what building
it from scratch writes, provided that nothing has been written over the artifacts of that build. Nor
is this more than is needed, where building from scratch succeeds. -/
theorem sound_iff_artifactsKept (hc : b.config.compile = false) (h : b.History t₀ ms t)
    (hempty : b.CacheEmpty t₀) {incremental : Bool} {inputs : List Path} {report : BuildReport}
    {t' : FileTree} (hrun : b.runOn incremental t inputs = (report, t'))
    (hd : b.Discerning (ms ++ b.moments incremental t inputs)) {r : FileReport}
    (hr : r ∈ report.files) (hcached : r.cached = true) :
    ∃ earlier m rest canonical, b.moments incremental t inputs = earlier ++ m :: rest ∧
      m.event = .build r.input r ∧ m.before.canonical r.input = .ok canonical ∧
      ∃ l : b.LastBuild (ms ++ earlier) canonical, l.build.canonical.same canonical = true ∧
        (l.SourcesKept m.before t' →
          (l.ArtifactsKept t' → b.Sound t' l.build.input ∧
            ∀ s ∈ (b.runOn false t' [l.build.input]).1.files,
              s.artifacts = l.build.report.artifacts) ∧
          ((∀ s ∈ (b.runOn false t' [l.build.input]).1.files, s.succeeded = true) →
            b.Sound t' l.build.input → l.ArtifactsKept t')) := by
  obtain rfl : (b.runOn incremental t inputs).1 = report := by rw [hrun]
  obtain rfl : (b.runOn incremental t inputs).2 = t' := by rw [hrun]
  obtain ⟨earlier, m, rest, canonical, hms, hevent, hcan, hfresh⟩ := exists_hit hc hr hcached
  obtain ⟨row, hrow, -, -, hprint⟩ := BuildCache.isFresh_iff.1 hfresh
  have hleads := leads_moments hc incremental t inputs
  have hcwd := ((h.leads hc).cwd hc).1
  have hend := (hleads.cwd hc).1
  rw [hms] at hleads
  rw [hms, ← append_assoc] at hd
  obtain ⟨_, hearlier, rfl, -, -⟩ := leads_append.1 hleads
  have hpast : b.Leads t₀ (ms ++ earlier) m.before := leads_append.2 ⟨t, h.leads hc, hearlier⟩
  obtain ⟨l, rfl, hsame⟩ := lastBuild_of_load hc hempty hpast hrow
  refine ⟨earlier, m, rest, canonical, hms, hevent, hcan, l, hsame, fun hkept => ?_⟩
  generalize (b.runOn incremental t inputs).2 = t' at *
  have hcwd' : t'.cwd = l.moment.before.cwd := by
    rw [hend, hcwd, (hpast.cwd hc).2 l.moment l.mem]
  have hread := read_eq_of_isFresh hd (mem_append_left _ l.mem)
    (mem_append_right _ mem_cons_self) l.completes hevent hcached hcan hrow hprint
  have hagrees : Source.Agrees l.moment.before t' b.config.includePaths l.build.sources := by
    refine ⟨hcwd', fun p hp => ?_, hkept.searches⟩
    obtain ⟨content, hbuilt, hseen⟩ := hread p hp
    rw [hkept.contents p hp, hseen, hbuilt]
  have hload := ShaderFile.load_agrees l.completes.load hagrees
    (hkept.found.trans l.completes.canonical.symm)
  have hx := (hpast.happens l.moment l.mem).constructs hc l.completes
  exact sound_iff_of_load hc hx hcwd' hkept.found hload
    ⟨_, (ofFiles_congr hkept.contents).trans hprint⟩

end Skipping

def vulkanOnly : Builder :=
  ⟨{ BuildConfig.standard with targets := [.vulkan], compile := false }, []⟩

def oneShader : FileTree :=
  ⟨[], [(["a"], .file (Text.utf8
    "#comp c\nNUM_THREADS(1,1,1)\nvoid CS_MAIN()\x7bINIT_MAIN;RETURN();\x7d\n#end") false)]⟩

def firstBuild : FileReport × BuildState :=
  (vulkanOnly.withIncremental true).buildFile (.ofTree oneShader) ⟨"a"⟩

theorem firstBuild_eq : (firstBuild.1.cached = false ∧ firstBuild.1.succeeded = true ∧
      firstBuild.1.artifacts = [⟨"out/vulkan/c.glsl"⟩, ⟨"out/vulkan/c.meta.json"⟩]) ∧
    (oneShader.canonical ⟨"a"⟩ = .ok ⟨"/a"⟩ ∧ firstBuild.2.tree.canonical ⟨"a"⟩ = .ok ⟨"/a"⟩ ∧
      firstBuild.2.tree.read ⟨"/a"⟩ = oneShader.read ⟨"/a"⟩) ∧
    (ShaderFile.load oneShader vulkanOnly.config.includePaths ⟨"a"⟩).map
      (·.source.dependencies) = .ok [⟨"/a"⟩] ∧
    (stream oneShader [⟨"/a"⟩]).map List.length = .ok 77 ∧
    (oneShader.readText ⟨"/a"⟩).map Source.included = .ok [] := by
  decide +kernel

theorem cacheEmpty_oneShader : vulkanOnly.CacheEmpty oneShader := by
  intro name k
  have hkey : oneShader.keyOf vulkanOnly.config.cachePath = ["out", ".fslcache"] := by
    decide +kernel
  rw [hkey]
  simp [FileTree.node?, oneShader]

/-- A shader that has been built and is built again is skipped, and its artifacts are those that it
has from scratch. -/
theorem sound_iff_artifactsKept_oneShader :
    (vulkanOnly.runOn true (vulkanOnly.runOn true oneShader [⟨"a"⟩]).2 [⟨"a"⟩]).1.files.map
        FileReport.cached = [true] ∧
      vulkanOnly.Sound (vulkanOnly.runOn true oneShader [⟨"a"⟩]).2 ⟨"a"⟩ ∧
      ∀ s ∈ (vulkanOnly.runOn false (vulkanOnly.runOn true oneShader [⟨"a"⟩]).2 [⟨"a"⟩]).1.files,
        s.artifacts = [⟨"out/vulkan/c.glsl"⟩, ⟨"out/vulkan/c.meta.json"⟩] := by
  have hc : vulkanOnly.config.compile = false := rfl
  have hempty := cacheEmpty_oneShader
  obtain ⟨⟨hrebuilt, hs, hartifacts⟩, ⟨hcan₀, hcan, hread⟩, hload, hlength, hincluded⟩ :=
    firstBuild_eq
  rw [firstBuild] at hrebuilt hs hartifacts hcan hread
  -- From here on nothing is to be computed any more.
  generalize vulkanOnly = b at *
  generalize oneShader = t₀ at *
  generalize (⟨"a"⟩ : Path) = input at *
  generalize (⟨"/a"⟩ : Path) = canonical at *
  obtain ⟨r, t, hfirst, -⟩ := buildFile_outcome hc true t₀ input
  rw [hfirst] at hrebuilt hs hartifacts hcan hread
  simp only [BuildState.ofTree] at hcan hread
  obtain ⟨f, hf, hdeps⟩ := map_eq_ok.1 hload
  obtain ⟨bytes, hbytes, hl⟩ := map_eq_ok.1 hlength
  rw [← hdeps] at hbytes
  have hm : b.Happens ⟨.build input r, t₀, t⟩ := .build true hfirst
  have hx : b.Completes ⟨.build input r, t₀, t⟩
      ⟨input, canonical, f, ofBytes bytes, r⟩ :=
    ⟨rfl, hrebuilt, hs, hcan₀, hf, map_eq_ok.2 ⟨bytes, hbytes, rfl⟩⟩
  have hkept : ∀ p ∈ f.source.dependencies, t.read p = t₀.read p := by
    rw [hdeps, forall_mem_singleton, hread]
  obtain ⟨skipped, hsecond, hskipped⟩ := exists_skipped hc hm hx hcan hkept
  simp only at hsecond
  have hrun := runOn_singleton hsecond
  have hist : b.History t₀ (b.moments true t₀ [input]) t := by
    have hist : b.History t₀ ([] ++ _) _ := .run true [input] .start
    rwa [nil_append, runOn_singleton hfirst] at hist
  have hd : b.Discerning (b.moments true t₀ [input] ++ b.moments true t [input]) := by
    rw [moments_singleton hfirst, moments_singleton hsecond]
    exact discerning_of_unchanged hc hm hx hcan hkept hbytes (by rw [hl]; decide) hskipped
  obtain ⟨earlier, m, rest, _, hms, -, -, l, -, h⟩ :=
    sound_iff_artifactsKept hc hist hempty hrun hd mem_cons_self hskipped
  rw [moments_singleton hsecond] at hms
  have hbefore : m.before = t := by
    have hm : m ∈ earlier ++ m :: rest := by simp
    rw [← hms] at hm
    simp only [mem_cons, not_mem_nil, or_false] at hm
    rcases hm with rfl | rfl <;> rfl
  have hl : l.moment = ⟨.build input r, t₀, t⟩ := by
    have hmem :
        l.moment ∈ [⟨.build input r, t₀, t⟩, ⟨.reject, t, t⟩] ++ (earlier ++ m :: rest) := by
      rw [← moments_singleton hfirst, ← append_assoc]
      exact mem_append_left _ l.mem
    have hevent := l.completes.event
    rw [← hms] at hmem
    simp only [cons_append, nil_append, mem_cons, not_mem_nil, or_false] at hmem
    rcases hmem with hmem | hmem | hmem | hmem
    · exact hmem
    · simp [hmem] at hevent
    · rw [hmem, Event.build.injEq] at hevent
      cases hskipped.symm.trans (hevent.2 ▸ l.completes.rebuilt)
    · simp [hmem] at hevent
  have hbuild := (hl ▸ l.completes).unique hx
  obtain ⟨text, htext, hnone⟩ := map_eq_ok.1 hincluded
  have hsources : l.SourcesKept m.before t := by
    refine ⟨by rw [hbuild]; exact hcan, fun p _ => by rw [hbefore], ?_⟩
    rw [hl, hbuild, Build.sources, hdeps]
    rintro p hp text' htext' file hfile
    obtain rfl := mem_singleton.1 hp
    rw [Except.ok.inj (htext'.symm.trans htext), hnone] at hfile
    cases hfile
  obtain ⟨hsound, hsame⟩ := (h hsources).1 fun p _ => by rw [hl]
  rw [hbuild] at hsound hsame
  rw [runOn_singleton hfirst, hrun]
  exact ⟨by simp [hskipped], hsound, fun s hs => (hsame s hs).trans hartifacts⟩

end Builder
end ShaderDialect
