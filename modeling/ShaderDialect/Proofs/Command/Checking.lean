import ShaderDialect.Command.Run
import ShaderDialect.Proofs.Build.Places

/-! Checking an input against building it. What is checked is found wrong exactly if building finds
it wrong, but for two things that only building finds out: that two variants of one output have the
same features, and that the tree does not take what is generated. -/
namespace ShaderDialect

open List Success

namespace FileTree
variable {t : FileTree} {out p : Path}

/-- Nothing is wrong with a path or with any of its names. -/
structure Fits (p : Path) : Prop where
  path : checkPath p = .ok ()
  length : checkLength p = .ok ()
  names : Short p

theorem fits_iff : Fits p ↔ checkPath p = .ok () ∧ checkLength p = .ok () ∧
    ∀ s ∈ p.segments, stepOf s = .name s → s.utf8ByteSize ≤ nameLimit := by
  constructor
  · rintro ⟨hc, hl, hshort⟩
    exact ⟨hc, hl, fun s hs hstep => hshort s (hstep ▸ mem_map_of_mem hs)⟩
  · rintro ⟨hc, hl, hshort⟩
    refine ⟨hc, hl, fun s hs => ?_⟩
    obtain ⟨s', hs', hstep⟩ := mem_map.1 hs
    obtain rfl : s' = s := by
      unfold stepOf at hstep
      split at hstep <;> simp_all
    exact hshort s' hs' hstep

instance : DecidablePred Fits := fun _ => decidable_of_iff _ fits_iff.symm

/-- A directory in which nothing is. -/
structure IsEmpty (t : FileTree) (out : Path) : Prop where
  directory : t.isDirectory out = true
  below : ∀ k, k ≠ [] → t.node? (t.keyOf out ++ k) = none

/-- The places that a directory is reached through, and those in it. -/
def waysInto (t : FileTree) (out : Path) : Set Key :=
  {k | k ∈ t.visited out ∨ ∃ s, k = t.keyOf out ++ [s]}

def placesIn (t : FileTree) (out : Path) : Set Key := {k | ∃ s s', k = t.keyOf out ++ [s, s']}

namespace IsEmpty

theorem visited (h : t.IsEmpty out) : ∀ k ∈ t.visited out, t.node? k = some .directory := by
  obtain ⟨hr, hd⟩ := isDirectory_iff.1 h.directory
  obtain ⟨-, -, hw⟩ := resolve_eq_ok.1 hr
  exact directory_of_walk (walk_concat_here.2 ⟨hw, hd⟩)

theorem apart (h : t.IsEmpty out) : ∀ k ∈ t.waysInto out, k ∉ t.placesIn out := by
  rintro k hk ⟨s, s', rfl⟩
  rcases hk with hk | ⟨s'', hk⟩
  · have hnone := h.below [s, s'] (by simp)
    cases hnone.symm.trans (h.visited _ hk)
  · have := congrArg List.length hk
    simp at this

theorem allotted (h : t.IsEmpty out) {dir : Path} (hdir : out.PlainIn dir) (hp : dir.PlainIn p) :
    Allotted (t.waysInto out) (t.placesIn out) t p := by
  obtain ⟨sub, hslash, hsub, rfl⟩ := hdir
  have hkey := t.keyOf_joinName out hslash hsub
  have hstart : t.node? (t.start out) = some .directory := h.visited _ (start_mem_trail _ _)
  obtain ⟨name, hname⟩ := hp.keyOf t
  refine ⟨hp.named, ?_, fun k hk => ?_, ⟨sub, name, by simp [hname, hkey]⟩, ?_⟩
  · rwa [hp.start, t.start_joinName out hslash]
  · rcases (t.mem_visited_joinName out hslash).1 ((hp.way t).subset hk) with hk | rfl
    · exact .inl hk
    · exact .inr ⟨sub, hkey⟩
  · -- Only the last place of the way can be one where nothing is.
    refine List.Pairwise.sublist (hp.way t).sublist ?_
    have hfirst : ∀ j ∈ t.way (out.joinName sub), ∀ k, t.node? j = none → t.node? k = none := by
      intro j hj k hnone
      cases hnone.symm.trans (h.visited j ((t.way_joinName out hslash).subset hj))
    rw [t.visited_joinName out hslash, pairwise_append]
    exact ⟨pairwise_of_forall_mem_list fun j hj k _ => hfirst j hj k, pairwise_singleton _ _,
      fun j hj k _ => hfirst j hj k⟩

theorem exists_place (h : t.IsEmpty out) (ht : Rooted t)
    (hp : Allotted (t.waysInto out) (t.placesIn out) t p) (hfits : Fits p) (content : List UInt8) :
    ∃ t', t.place p content = .ok t' := by
  obtain ⟨s, hnamed⟩ := hp.named
  obtain ⟨v, hnone, hv⟩ := place_verdict hnamed
  have hopen : t.Open (t.way p) := by
    intro k hk content x hfile
    rcases hp.way k hk with hk | ⟨s', rfl⟩
    · cases hfile.symm.trans (h.visited k hk)
    · cases hfile.symm.trans (h.below [s'] (by simp))
  have hfree : t.node? (t.keyOf p) ≠ some .directory := by
    obtain ⟨s, s', hkey⟩ := hp.place
    rw [hkey, h.below [s, s'] (by simp)]
    simp
  obtain ⟨t', ht', -⟩ :=
    (hv t content ht hp.start hopen fun hmem => h.apart _ (hp.way _ hmem) hp.place).2.2
    (hnone hfits.path hfits.length hfits.names) hfree
  exact ⟨t', ht'⟩

end IsEmpty
end FileTree

/-- A configuration with which nothing is compiled and nothing is taken from earlier builds. -/
def BuildConfig.sourcesOnly (c : BuildConfig) : BuildConfig :=
  { c with compile := false, incremental := false }

namespace Builder
variable {b : Builder} {t : FileTree} {input : Path}

/-- No two variants of an output have the same features. -/
def Distinct (b : Builder) (t : FileTree) (input : Path) : Prop :=
  ∀ f os, ShaderFile.load t b.config.includePaths input = .ok f → f.outputs = .ok os →
    b.config.targets = [] ∨ (os.map fun o => (o.name, o.features)).Nodup

/-- The tree takes what is generated for an input, and its row. -/
def Takes (b : Builder) (t : FileTree) (input : Path) : Prop :=
  ∀ canonical f, t.canonical input = .ok canonical →
    ShaderFile.load t b.config.includePaths input = .ok f →
    ∃ t', t.placeAll (b.generated f ++ [(b.cache.rowPath canonical, [])]) = .ok t'

/-- Files are put into an empty directory, and their paths fit. -/
structure HasRoom (b : Builder) (t : FileTree) (input : Path) : Prop where
  rooted : t.Rooted
  empty : t.IsEmpty b.config.outDir
  cache : b.config.cacheDir = none
  plain : ∀ f os, ShaderFile.load t b.config.includePaths input = .ok f → f.outputs = .ok os →
    ∀ o ∈ os, '/' ∉ o.name.toList
  fits : ∀ canonical f, t.canonical input = .ok canonical →
    ShaderFile.load t b.config.includePaths input = .ok f →
    ∀ file ∈ b.generated f ++ [(b.cache.rowPath canonical, [])], FileTree.Fits file.1

/-- All that a build puts somewhere goes into a directory of its own. -/
theorem HasRoom.plainIn (h : b.HasRoom t input) : ∀ dir ∈ b.cache.dir :: b.directories,
    b.config.outDir.PlainIn dir := by
  have hcache : b.cache.dir = b.config.outDir.joinName ".fslcache" := by
    change b.config.cachePath = _
    rw [BuildConfig.cachePath, h.cache, Option.getD_none]
  intro dir hdir
  rcases mem_cons.1 hdir with rfl | hdir
  · exact ⟨".fslcache", by decide, by decide, hcache⟩
  rcases mem_cons.1 hdir with rfl | hdir
  · exact ⟨"reflection", by decide, by decide, rfl⟩
  obtain ⟨target, -, rfl⟩ := mem_map.1 hdir
  exact ⟨target.name, by cases target <;> decide, by cases target <;> decide, rfl⟩

theorem HasRoom.takes (h : b.HasRoom t input) : b.Takes t input := by
  intro canonical f hcanonical hload
  have hfits := h.fits canonical f hcanonical hload
  have hrow := b.plainIn_rowPath canonical
  generalize b.cache.rowPath canonical = row at hfits hrow ⊢
  have hallotted : ∀ file ∈ b.generated f ++ [(row, [])],
      FileTree.Allotted (t.waysInto b.config.outDir) (t.placesIn b.config.outDir) t file.1 := by
    intro file hfile
    obtain ⟨dir, hdir, hplain⟩ : ∃ dir ∈ b.cache.dir :: b.directories, dir.PlainIn file.1 := by
      rcases mem_append.1 hfile with hfile | hfile
      · obtain ⟨dir, hdir, hplain⟩ :=
          plainIn_generated hload (fun os => h.plain f os hload) file hfile
        exact ⟨dir, mem_cons_of_mem _ hdir, hplain⟩
      · obtain rfl := mem_singleton.1 hfile
        exact ⟨b.cache.dir, mem_cons_self, hrow⟩
    exact h.empty.allotted (h.plainIn dir hdir) hplain
  exact (FileTree.Filled.refl h.rooted).placeAll h.empty.apart h.rooted hallotted fun file hfile =>
    h.empty.exists_place h.rooted (hallotted file hfile) (hfits file hfile) _

theorem succeeded_run_singleton (hc : b.config.compile = false) (hi : b.config.incremental = false)
    (t : FileTree) (input : Path) :
    (b.run (.ofTree t) [input]).1.succeeded = true ↔ (b.task input).Passes t := by
  obtain ⟨r, hr, hfile⟩ := buildFile_eq hc hi t input
  have hnot : (BuildState.ofTree ((b.task input).finish t).2).cancelled = false := rfl
  simp [run, buildFiles, hfile, rejectShared, sharedFaults, clashes, BuildReport.succeeded,
    Task.Passes, hr, hnot]

end Builder

namespace Command
variable {c : BuildConfig} {t : FileTree} {input : Path} {args : BuildArguments} {α β : Type}

theorem targetFaults_eq_nil {f : ShaderFile} {os : List Output} {target : Target} :
    targetFaults c f os target = [] ↔
      ∀ o ∈ os, ∃ s, f.shader c.signatures (c.options target).emitOptions o target = .ok s := by
  rw [targetFaults, filterMap_eq_nil_iff]
  refine forall₂_congr fun o _ => ?_
  cases f.shader c.signatures (c.options target).emitOptions o target <;> simp

/-- An input is found right exactly if it can be read, its tables and outputs are right, and a
shader is generated for each output on each target. -/
theorem inputFaults_eq_nil : inputFaults c t input = [] ↔
    ∃ f os, ShaderFile.load t c.includePaths input = .ok f ∧ f.tables.faults = [] ∧
      f.outputs = .ok os ∧ ∀ target ∈ c.targets, ∀ o ∈ os,
        ∃ s, f.shader c.signatures (c.options target).emitOptions o target = .ok s := by
  unfold inputFaults
  cases hload : ShaderFile.load t c.includePaths input with
  | error e => simp
  | ok f =>
    cases hos : f.outputs with
    | error e => simp [hos]
    | ok os => simp [hos, targetFaults_eq_nil]

theorem run_bind_of_ok {x : Working α} {f : α → Working β} {s s' : Session} {a : α}
    (h : x.run.run s = (.ok a, s')) : (x >>= f).run.run s = (f a).run.run s' := by
  simp only [ExceptT.run_bind, StateT.run_bind, h]
  rfl

theorem run_reportLines (input : Path) (faults : List String) (s : Session) :
    ∃ stderr, (faults.forM fun e => reportLine s!"{input}: {e}").run.run s =
      (.ok (), { s with stderr }) ∧ (faults = [] → stderr = s.stderr) := by
  induction faults generalizing s with
  | nil => exact ⟨s.stderr, rfl, fun _ => rfl⟩
  | cons e faults ih =>
    obtain ⟨stderr, hrest, -⟩ := ih { s with stderr := s.stderr ++ s!"{input}: {e}" ++ "\n" }
    exact ⟨stderr, hrest, by simp⟩

theorem run_reportFaults (faults : List (Path × List String)) (s : Session) :
    ∃ stderr, (faults.forM fun (input, faults) => faults.forM fun e =>
      reportLine s!"{input}: {e}").run.run s = (.ok (), { s with stderr }) ∧
      ((∀ f ∈ faults, f.2 = []) → stderr = s.stderr) := by
  induction faults generalizing s with
  | nil => exact ⟨s.stderr, rfl, fun _ => rfl⟩
  | cons f faults ih =>
    obtain ⟨input, lines⟩ := f
    obtain ⟨stderr₁, hfirst, hnil⟩ := run_reportLines input lines s
    obtain ⟨stderr, hrest, hnone⟩ := ih { s with stderr := stderr₁ }
    refine ⟨stderr, (run_bind_of_ok hfirst).trans hrest, fun h => ?_⟩
    rw [forall_mem_cons] at h
    rw [hnone h.2, hnil h.1]

/-- A check ends well and in silence exactly if nothing is wrong with any input. -/
theorem run_check (hc : (buildConfig args).run.run ⟨t, "", ""⟩ = (.ok c, ⟨t, "", ""⟩)) (m : Machine)
    (n : Network) (inputs : List Path) :
    (check inputs args).run m n t = .ended 0 ⟨t, "", ""⟩ ↔
      ∀ input ∈ inputs, inputFaults c t input = [] := by
  obtain ⟨stderr, hreport, hsilent⟩ :=
    run_reportFaults (inputs.map fun input => (input, inputFaults c t input)) ⟨t, "", ""⟩
  rw [run, finish, runCheck, run_bind_of_ok hc, run_bind_of_ok (x := tree) (s := ⟨t, "", ""⟩) rfl]
  dsimp only
  rw [run_bind_of_ok hreport]
  constructor
  · intro h input hinput
    by_contra hfault
    have hfailed : 0 < ((inputs.map fun input => (input, inputFaults c t input)).filter
        fun (_, faults) => !faults.isEmpty).length := by
      refine length_pos_of_mem (mem_filter.2 ⟨mem_map_of_mem hinput, ?_⟩)
      simpa using hfault
    rw [if_pos hfailed] at h
    cases h
  · intro h
    rw [if_neg (by simpa using h), hsilent (by simpa using h)]
    rfl

/-- An input passes exactly if nothing is found wrong with it, no two variants of an output have the
same features, and the tree takes what is generated. -/
theorem passes_iff_inputFaults (b : Builder) (t : FileTree) (input : Path) :
    (b.task input).Passes t ↔
    inputFaults b.config t input = [] ∧ b.Distinct t input ∧ b.Takes t input := by
  rw [Builder.passes_task, inputFaults_eq_nil]
  simp only [Builder.answer_planTarget]
  constructor
  · rintro ⟨canonical, f, os, hcanonical, hload, hfaults, hos, hplan, htakes⟩
    refine ⟨⟨f, os, hload, hfaults, hos, fun target htarget => (hplan target htarget).1⟩, ?_, ?_⟩
    · intro f' os' hload' hos'
      cases hload.symm.trans hload'
      cases hos.symm.trans hos'
      cases htargets : b.config.targets with
      | nil => exact .inl rfl
      | cons target targets => exact .inr (hplan target (by simp [htargets])).2
    · intro canonical' f' hcanonical' hload'
      cases hcanonical.symm.trans hcanonical'
      cases hload.symm.trans hload'
      exact htakes
  · rintro ⟨⟨f, os, hload, hfaults, hos, hall⟩, hdistinct, htakes⟩
    obtain ⟨canonical, _, _, hcanonical, -⟩ :=
      Source.load_eq_ok.1 (ShaderFile.source_of_load hload)
    refine ⟨canonical, f, os, hcanonical, hload, hfaults, hos, fun target htarget => ?_,
      htakes canonical f hcanonical hload⟩
    refine ⟨hall target htarget, (hdistinct f os hload hos).resolve_left ?_⟩
    exact ne_nil_of_mem htarget

/-- Building an input from scratch succeeds exactly if checking finds nothing wrong with it, no two
variants of an output have the same features, and the tree takes what is generated, as it does if
there is room. -/
theorem succeeds_iff_checked {m : Machine} {b : Builder} {s : BuildState}
    (hc : (buildConfig args).run.run ⟨t, "", ""⟩ = (.ok c, ⟨t, "", ""⟩))
    (hb : Builder.start m t c.sourcesOnly = (b, s)) (n : Network) (input : Path) :
    ((b.run s [input]).1.succeeded = true ↔
      (check [input] args).run m n t = .ended 0 ⟨t, "", ""⟩ ∧ b.Distinct t input ∧
      b.Takes t input) ∧
    (b.HasRoom t input → ((b.run s [input]).1.succeeded = true ↔
      (check [input] args).run m n t = .ended 0 ⟨t, "", ""⟩ ∧ b.Distinct t input)) := by
  cases hb
  have hrun := Builder.succeeded_run_singleton (b := ⟨c.sourcesOnly, []⟩) rfl rfl t input
  rw [passes_iff_inputFaults] at hrun
  have hchecked : (check [input] args).run m n t = .ended 0 ⟨t, "", ""⟩ ↔
      inputFaults c t input = [] := by
    rw [run_check hc, forall_mem_singleton]
  rw [hchecked]
  refine ⟨hrun, fun hroom => hrun.trans (and_congr_right fun _ => ?_)⟩
  exact and_iff_left hroom.takes

/-- A directory in which nothing is, and a file with the same shader twice. -/
def twins : FileTree :=
  ⟨[], [(["out"], .directory), (["a"], .file (Text.utf8
    "#comp c\nNUM_THREADS(1,1,1)\nvoid CS_MAIN()\x7bINIT_MAIN;RETURN();\x7d\n#end
#comp c\nNUM_THREADS(1,1,1)\nvoid CS_MAIN()\x7bINIT_MAIN;RETURN();\x7d\n#end") false)]⟩

/-- What is asked for on the command line: one target. -/
def vulkanArguments : BuildArguments := ⟨none, some [.vulkan], []⟩

def vulkanConfig : BuildConfig := { BuildConfig.standard with targets := [.vulkan] }

theorem twins_eq : inputFaults vulkanConfig twins ⟨"a"⟩ = [] ∧ twins.canonical ⟨"a"⟩ = .ok ⟨"/a"⟩ ∧
    (ShaderFile.load twins [] ⟨"a"⟩).map (fun f =>
      (f.outputs.map (List.map fun o => (o.name, o.features)),
        (Builder.generated ⟨vulkanConfig.sourcesOnly, []⟩ f).map Prod.fst)) =
      .ok (.ok [("c", ⟨0⟩), ("c", ⟨0⟩)], [⟨"out/vulkan/c.glsl"⟩, ⟨"out/vulkan/c.meta.json"⟩,
        ⟨"out/vulkan/c.glsl"⟩, ⟨"out/vulkan/c.meta.json"⟩]) := by
  decide +kernel

theorem hasRoom_twins : Builder.HasRoom ⟨vulkanConfig.sourcesOnly, []⟩ twins ⟨"a"⟩ := by
  obtain ⟨-, hcanonical, htwins⟩ := twins_eq
  obtain ⟨f, hf, htwins⟩ := map_eq_ok.1 htwins
  obtain ⟨hnames, hpaths⟩ := Prod.mk.inj htwins
  have hkey : twins.keyOf ⟨"out"⟩ = ["out"] := by decide +kernel
  refine ⟨FileTree.rooted_of_nodes (by decide +kernel), ⟨by decide +kernel, fun k hk => ?_⟩, rfl,
    ?_, ?_⟩
  · change twins.node? (twins.keyOf ⟨"out"⟩ ++ k) = none
    rw [hkey]
    simp [FileTree.node?, twins, hk]
  · intro f' os hload hos o ho
    cases hf.symm.trans hload
    obtain ⟨os', hos', hmap⟩ := map_eq_ok.1 hnames
    cases hos.symm.trans hos'
    have hmem : (o.name, o.features) ∈ [("c", ⟨0⟩), ("c", ⟨0⟩)] :=
      hmap ▸ mem_map_of_mem (f := fun o : Output => (o.name, o.features)) ho
    have hname : o.name = "c" := by simpa using congrArg Prod.fst ((mem_pair.1 hmem).elim id id)
    rw [hname]
    decide
  · intro canonical f' hcanonical' hload file hfile
    cases hcanonical.symm.trans hcanonical'
    cases hf.symm.trans hload
    rcases mem_append.1 hfile with hfile | hfile
    · have hall : ∀ p ∈ ([⟨"out/vulkan/c.glsl"⟩, ⟨"out/vulkan/c.meta.json"⟩, ⟨"out/vulkan/c.glsl"⟩,
          ⟨"out/vulkan/c.meta.json"⟩] : List Path), FileTree.Fits p := by decide +kernel
      exact hall file.1 (hpaths ▸ mem_map_of_mem hfile)
    · have hrow :
          FileTree.Fits ((Builder.mk vulkanConfig.sourcesOnly []).cache.rowPath ⟨"/a"⟩) := by
        decide +kernel
      rwa [mem_singleton.1 hfile]

/-- The same shader twice is found right, and cannot be built. -/
theorem succeeds_iff_checked_twins :
    (check [⟨"a"⟩] vulkanArguments).run ⟨[], ⟨"tmp"⟩, fun _ _ _ => .error .notFound⟩
        ⟨fun _ => .error .connectionRefused, fun _ => .ok ()⟩ twins = .ended 0 ⟨twins, "", ""⟩ ∧
      Builder.HasRoom ⟨vulkanConfig.sourcesOnly, []⟩ twins ⟨"a"⟩ ∧
      ((Builder.mk vulkanConfig.sourcesOnly []).run (.ofTree twins) [⟨"a"⟩]).1.succeeded =
        false := by
  have hconfig : (buildConfig vulkanArguments).run.run ⟨twins, "", ""⟩ =
      (.ok vulkanConfig, ⟨twins, "", ""⟩) := rfl
  obtain ⟨hfaults, -, htwins⟩ := twins_eq
  obtain ⟨f, hf, htwins⟩ := map_eq_ok.1 htwins
  obtain ⟨os, hos, hmap⟩ := map_eq_ok.1 (Prod.mk.inj htwins).1
  refine ⟨(run_check hconfig _ _ _).2 (forall_mem_singleton.2 hfaults), hasRoom_twins, ?_⟩
  have hiff := (succeeds_iff_checked (m := ⟨[], ⟨"tmp"⟩, fun _ _ _ => .error .notFound⟩) hconfig rfl
    ⟨fun _ => .error .connectionRefused, fun _ => .ok ()⟩ ⟨"a"⟩).2 hasRoom_twins
  refine Bool.eq_false_iff.2 fun hsucceeded => ?_
  have hdistinct := ((hiff.1 hsucceeded).2 f os hf hos).resolve_left (cons_ne_nil _ _)
  rw [hmap] at hdistinct
  exact absurd hdistinct (by decide)

end Command
end ShaderDialect
