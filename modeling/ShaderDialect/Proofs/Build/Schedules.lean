import ShaderDialect.Proofs.Build.Foretelling
import ShaderDialect.Proofs.Build.Places

/-! What a crew reports does not depend on its schedule: not on the number of workers, nor on the
order of the inputs, nor on who takes the next step. The files that are put in place must keep out
of the way: no input may look at them while it is read, and they may not stand where directories are
made. -/
namespace ShaderDialect

open List Relation Source Std FileTree

namespace Builder
variable {f : ShaderFile} {built : List Bool}

/-- The places that are led through to the directories of a build. -/
def ways (b : Builder) (t : FileTree) : Set Key :=
  {k | ∃ dir ∈ b.cache.dir :: b.directories, k ∈ t.visited dir}

/-- The places at which files are put when an input is built. -/
def placesFor (b : Builder) (t : FileTree) (input : Path) : List Key :=
  match t.canonical input, ShaderFile.load t b.config.includePaths input with
  | .ok canonical, .ok f =>
    List.map (fun file => t.keyOf file.1) (b.generated f ++ [(b.cache.rowPath canonical, [])])
  | _, _ => []

/-- The places at which files are put when inputs are built. -/
def places (b : Builder) (t : FileTree) (inputs : List Path) : Set Key :=
  {k | k ∈ inputs.flatMap (b.placesFor t)}

/-- Inputs are different files, and the files that are put in place for them keep out of the way. -/
structure Apart (b : Builder) (t : FileTree) (inputs : List Path) : Prop where
  proper : t.Proper
  distinct : ∃ canonicals : List Path, inputs.map t.canonical = canonicals.map .ok ∧
    canonicals.Nodup
  plain : ∀ input ∈ inputs, ∀ f os, ShaderFile.load t b.config.includePaths input = .ok f →
    f.outputs = .ok os → ∀ o ∈ os, '/' ∉ o.name.toList
  /-- No file is put where the directories of the build are or where the way to them leads, and that
  way does not lead back from a place where nothing is. -/
  dirs : ∀ dir ∈ [b.config.outDir, b.cache.dir], t.Straight (t.visited dir) ∧
    ∀ k ∈ t.visited dir, k ∉ b.places t inputs
  /-- Nothing that is looked at while an input is read is put in place, or is reached by leading
  back from a place where nothing is. -/
  looks : ∀ input ∈ inputs, ∀ p, Reading.Looks t b.config.includePaths input p →
    t.Straight (t.visited p) ∧ t.keyOf p ∉ b.places t inputs

/-- What is told of an input that is built alone. -/
def alone (b : Builder) (t : FileTree) (input : Path) : FileReport :=
  (b.buildFile (.ofTree t) input).1

section Independence
variable {b : Builder} {t u : FileTree} {inputs : List Path} {input canonical : Path}

theorem exists_sub {dir : Path} (h : dir ∈ b.directories) :
    ∃ sub, dir = b.config.outDir.joinName sub ∧
    '/' ∉ sub.toList ∧ stepOf sub = .name sub ∧ '.' ∉ sub.toList := by
  rcases mem_cons.1 h with rfl | h
  · exact ⟨"reflection", rfl, by decide, by decide, by decide⟩
  · obtain ⟨target, -, rfl⟩ := mem_map.1 h
    exact ⟨target.name, rfl, by cases target <;> decide, by cases target <;> decide,
      by cases target <;> decide⟩

theorem mem_places {k : Key} : k ∈ b.places t inputs ↔ ∃ input ∈ inputs, ∃ canonical f,
    t.canonical input = .ok canonical ∧ ShaderFile.load t b.config.includePaths input = .ok f ∧
    ∃ file ∈ b.generated f ++ [(b.cache.rowPath canonical, [])], k = t.keyOf file.1 := by
  refine mem_flatMap.trans (exists_congr fun input => and_congr_right fun _ => ?_)
  unfold placesFor
  cases t.canonical input with
  | error e => simp
  | ok canonical =>
    cases ShaderFile.load t b.config.includePaths input with
    | error e => simp
    | ok f =>
      simp only [mem_map, eq_comm, Except.ok.injEq]
      constructor
      · exact fun h => ⟨canonical, f, rfl, rfl, h⟩
      · rintro ⟨canonical, f, rfl, rfl, h⟩
        exact h

namespace Apart

theorem exists_canonical (h : b.Apart t inputs) (hinput : input ∈ inputs) :
    ∃ canonical, t.canonical input = .ok canonical := by
  obtain ⟨canonicals, hmap, -⟩ := h.distinct
  obtain ⟨canonical, -, he⟩ := mem_map.1 (hmap ▸ mem_map_of_mem hinput)
  exact ⟨canonical, he.symm⟩

theorem straight (h : b.Apart t inputs) : ∀ dir ∈ b.cache.dir :: b.directories,
    t.Straight (t.visited dir) := by
  intro dir hdir
  rcases mem_cons.1 hdir with rfl | hdir
  · exact (h.dirs b.cache.dir (by simp)).1
  · obtain ⟨sub, rfl, hslash, hsub, -⟩ := exists_sub hdir
    exact (h.dirs b.config.outDir (by simp)).1.joinName h.proper.rooted hslash hsub

theorem plainIn (h : b.Apart t inputs) (hinput : input ∈ inputs)
    (hload : ShaderFile.load t b.config.includePaths input = .ok f) (canonical : Path) :
    ∀ file ∈ b.generated f ++ [(b.cache.rowPath canonical, [])],
      (∃ dir ∈ b.directories, dir.PlainIn file.1) ∨ file.1 = b.cache.rowPath canonical := by
  intro file hfile
  rcases mem_append.1 hfile with hfile | hfile
  · exact .inl (plainIn_generated hload (fun os => h.plain input hinput f os hload) file hfile)
  · exact .inr (by rw [mem_singleton.1 hfile])

theorem apart (h : b.Apart t inputs) : ∀ k ∈ b.ways t, k ∉ b.places t inputs := by
  rintro k ⟨dir, hdir, hk⟩
  rcases mem_cons.1 hdir with rfl | hdir
  · exact (h.dirs b.cache.dir (by simp)).2 k hk
  obtain ⟨sub, rfl, hslash, hsub, hdot⟩ := exists_sub hdir
  rcases (t.mem_visited_joinName _ hslash).1 hk with hk | rfl
  · exact (h.dirs b.config.outDir (by simp)).2 k hk
  -- A directory in the output directory is no file of another one, and has not the name of a row.
  intro hplace
  obtain ⟨input, hinput, canonical, f, -, hload, file, hfile, hkey⟩ := mem_places.1 hplace
  rw [t.keyOf_joinName _ hslash hsub] at hkey
  rcases h.plainIn hinput hload canonical file hfile with ⟨dir', hdir', hplain⟩ | hrow
  · obtain ⟨sub', rfl, hslash', hsub', -⟩ := exists_sub hdir'
    obtain ⟨name, hname⟩ := hplain.keyOf t
    rw [hname, t.keyOf_joinName _ hslash' hsub'] at hkey
    have hlength := congrArg List.length hkey
    simp at hlength
  · have hend : '.' ∈ (BuildCache.rowName canonical).toList := by
      rw [BuildCache.rowName, String.toList_append]
      exact mem_append_right _ (by decide)
    rw [hrow, BuildCache.keyOf_rowPath] at hkey
    generalize BuildCache.rowName canonical = row at hend hkey
    obtain ⟨-, hsame⟩ := append_inj' hkey rfl
    exact hdot (singleton_inj.1 hsame ▸ hend)

theorem allotted (h : b.Apart t inputs) (hinput : input ∈ inputs)
    (hcanonical : t.canonical input = .ok canonical)
    (hload : ShaderFile.load t b.config.includePaths input = .ok f) :
    ∀ file ∈ b.generated f ++ [(b.cache.rowPath canonical, [])],
      Allotted (b.ways t) (b.places t inputs) t file.1 := by
  intro file hfile
  have hplace : t.keyOf file.1 ∈ b.places t inputs :=
    mem_places.2 ⟨input, hinput, canonical, f, hcanonical, hload, file, hfile, rfl⟩
  obtain ⟨dir, hdir, hplain⟩ : ∃ dir ∈ b.cache.dir :: b.directories, dir.PlainIn file.1 := by
    rcases h.plainIn hinput hload canonical file hfile with ⟨dir, hdir, hplain⟩ | hrow
    · exact ⟨dir, mem_cons_of_mem _ hdir, hplain⟩
    · exact ⟨b.cache.dir, mem_cons_self, hrow ▸ b.plainIn_rowPath canonical⟩
  exact ⟨hplain.named, h.proper.start _, fun k hk => ⟨dir, hdir, (hplain.way t).subset hk⟩, hplace,
    (h.straight dir hdir).sublist (hplain.way t).sublist⟩

/-- What is looked at while an input is read stays as it is. -/
theorem sameAt (h : b.Apart t inputs) (hinput : input ∈ inputs)
    (hu : Filled (b.ways t) (b.places t inputs) t u) :
    ∀ p, Reading.Looks t b.config.includePaths input p → Reading.SameAt t u p := by
  intro p hp
  obtain ⟨hstraight, hplace⟩ := h.looks input hinput p hp
  exact ⟨hu.isFile hstraight hplace, fun file => hu.canonical,
    fun file hc => hu.read_canonical h.proper hc hplace⟩

/-- The task that is left when an input has been read comes to what is told of it when it is built
alone. -/
theorem comes (h : b.Apart t inputs) (hc : b.config.compile = false)
    (hi : b.config.incremental = false) (hinput : input ∈ inputs)
    (hcanonical : t.canonical input = .ok canonical) :
    (b.fileTask input canonical (ShaderFile.load t b.config.includePaths input)).Comes
        (b.ways t) (b.places t inputs) t (b.alone t input) ∧ (b.alone t input).IsOn input := by
  have hforetold :
      (b.fileTask input canonical (ShaderFile.load t b.config.includePaths input)).Foretold
      (b.ways t) (b.places t inputs) t input := by
    cases hload : ShaderFile.load t b.config.includePaths input with
    | error e => exact Task.foretold_stoppedBy ⟨rfl, rfl⟩ e
    | ok f =>
      refine foretold_fileTask (fun u hu p hp => ?_) (h.allotted hinput hcanonical hload)
      obtain ⟨q, hq, hfile⟩ := Reading.exists_looks_of_load (ShaderFile.source_of_load hload) p hp
      exact (h.sameAt hinput hu q hq).read p hfile
  obtain ⟨r, hr, hon⟩ := hforetold
  obtain ⟨r', hr', hbuild⟩ := buildFile_eq hc hi t input
  have hfinish := hr.finish h.apart h.proper.rooted (Filled.refl h.proper.rooted)
  rw [task_eq] at hr'
  simp only [Task.finish, hcanonical] at hr'
  obtain rfl : r = r' := Option.some.inj (hfinish.symm.trans hr')
  have halone : b.alone t input = r := by rw [alone, hbuild]
  rw [halone]
  exact ⟨hr, hon⟩

end Apart

/-- The work on an input has got as far as it would if the input was built alone. -/
def OnCourse (b : Builder) (t : FileTree) (inputs : List Path) (input : Path) : Job → Prop
  | .taken p => p = input
  | .located p canonical => p = input ∧ t.canonical input = .ok canonical
  | .reading p canonical r => p = input ∧ t.canonical input = .ok canonical ∧
    Reading.Reaches t b.config.includePaths input r
  | .working task => task.Comes (b.ways t) (b.places t inputs) t (b.alone t input)

theorem OnCourse.report? {job : Job} (h : b.OnCourse t inputs input job) {r : FileReport}
    (hr : job.report? = some r) : r = b.alone t input := by
  cases job with
  | working task => exact Task.Comes.report? h hr
  | taken p => cases hr
  | located p canonical => cases hr
  | reading p canonical r => cases hr

/-- What holds of a crew at every moment: files have been put in place only where they belong, all
work is on course, and what has been told is what is told of inputs that are built alone. -/
structure OnTrack (b : Builder) (t : FileTree) (inputs : List Path) (crew : Crew) : Prop where
  filled : Filled (b.ways t) (b.places t inputs) t crew.tree
  accounts : ∃ (held : List (Path × Job)) (told : List Path), held.map Prod.snd = crew.jobs ∧
    (∀ x ∈ held, b.OnCourse t inputs x.1 x.2) ∧ crew.reports = told.map (b.alone t) ∧
    (crew.queue ++ held.map Prod.fst ++ told).Perm inputs

section Track
variable {u' : FileTree} {job job' : Job} (h : b.Apart t inputs) (hc : b.config.compile = false)
  (hi : b.config.incremental = false)
include h hc hi

theorem OnCourse.of_ends (hinput : input ∈ inputs) (hcanonical : t.canonical input = .ok canonical)
    {result : Except Failure Reading} (hends : Reading.Ends t b.config.includePaths input result) :
    b.OnCourse t inputs input (.working (b.fileTask input canonical (fileOf input result))) := by
  rw [fileOf_eq_load hends]
  exact (h.comes hc hi hinput hcanonical).1

theorem OnCourse.step (hinput : input ∈ inputs) (hjob : b.OnCourse t inputs input job)
    (hu : Filled (b.ways t) (b.places t inputs) t u) (hstep : b.JobStep u job u' job') :
    b.OnCourse t inputs input job' ∧ Filled (b.ways t) (b.places t inputs) t u' := by
  -- Nothing that the input looks at has changed, so the step is the one that it takes alone.
  have hsame := h.sameAt hinput hu
  cases job with
  | taken p =>
    obtain rfl : p = input := hjob
    obtain ⟨canonical, hcanonical⟩ := h.exists_canonical hinput
    have hfound := hu.canonical hcanonical
    cases hstep with
    | locate hl =>
      cases Except.ok.inj (hfound.symm.trans hl)
      exact ⟨⟨rfl, hcanonical⟩, hu⟩
    | lose hl => cases hfound.symm.trans hl
  | located p canonical =>
    obtain ⟨rfl, hcanonical⟩ := hjob
    have hstart := Reading.start_eq hsame hcanonical
    cases hstep with
    | start hs => exact ⟨⟨rfl, hcanonical, _, hstart.symm.trans hs, .refl⟩, hu⟩
    | @balk _ _ e hs =>
      have hends : Reading.Ends t b.config.includePaths p (.error e) := by
        rw [Reading.Ends, hstart.symm.trans hs]
      exact ⟨.of_ends h hc hi hinput hcanonical hends, hu⟩
  | reading p canonical r =>
    obtain ⟨rfl, hcanonical, hreaches⟩ := hjob
    have hnext := Reading.Reaches.step_eq hsame hreaches
    obtain ⟨r₀, hstart, hleads⟩ := hreaches
    cases hstep with
    | read hn =>
      exact ⟨⟨rfl, hcanonical, r₀, hstart, hleads.tail ⟨hn.1, hnext.symm.trans hn.2⟩⟩, hu⟩
    | @stop _ _ _ result hs =>
      have hstops : r.Stops t b.config.includePaths result := by
        cases result with
        | error e => exact hnext.symm.trans hs
        | ok r' => exact hs
      have hends : Reading.Ends t b.config.includePaths p result := by
        rw [Reading.Ends, hstart]
        exact ⟨r, hleads, hstops⟩
      exact ⟨.of_ends h hc hi hinput hcanonical hends, hu⟩
  | working task =>
    obtain ⟨task', rfl, hcomes, hfilled⟩ := Task.Comes.step h.apart h.proper.rooted hjob hu hstep
    exact ⟨hcomes, hfilled⟩

/-- Whoever takes the next step, the crew stays on track. -/
theorem OnTrack.step {workers : Nat} {crew crew' : Crew} (hcrew : b.OnTrack t inputs crew)
    (hstep : b.CrewStep workers crew crew') : b.OnTrack t inputs crew' := by
  obtain ⟨hfilled, held, told, hjobs, hcourse, hreports, hperm⟩ := hcrew
  cases hstep with
  | @take _ input _ _ _ _ =>
    refine ⟨hfilled, held ++ [(input, .taken input)], told, by simp [hjobs], ?_, hreports, ?_⟩
    · rw [forall_mem_append, forall_mem_singleton]
      exact ⟨hcourse, rfl⟩
    · refine .trans ?_ hperm
      simp only [map_append, map_cons, map_nil, cons_append, append_assoc,
        nil_append]
      exact (perm_middle.append_left _).trans perm_middle
  | @work _ _ _ _ job' _ before after hwork =>
    -- The job that takes the step is held for one of the inputs, and no other job changes.
    obtain ⟨heldBefore, rest, rfl, rfl, hrest⟩ := map_eq_append_iff.1 hjobs
    obtain ⟨⟨input, job⟩, heldAfter, rfl, rfl, rfl⟩ := map_eq_cons_iff.1 hrest
    have hinput : input ∈ inputs := hperm.subset (by simp)
    simp only [forall_mem_append, forall_mem_cons] at hcourse
    obtain ⟨hjob, hfilled'⟩ := OnCourse.step h hc hi hinput hcourse.2.1 hfilled hwork
    refine ⟨hfilled', heldBefore ++ (input, job') :: heldAfter, told, by simp, ?_, hreports, ?_⟩
    · simp only [forall_mem_append, forall_mem_cons]
      exact ⟨hcourse.1, hjob, hcourse.2.2⟩
    · simpa using hperm
  | tell before after hr =>
    obtain ⟨heldBefore, rest, rfl, rfl, hrest⟩ := map_eq_append_iff.1 hjobs
    obtain ⟨⟨input, job⟩, heldAfter, rfl, rfl, rfl⟩ := map_eq_cons_iff.1 hrest
    simp only [forall_mem_append, forall_mem_cons] at hcourse
    refine ⟨hfilled, heldBefore ++ heldAfter, told ++ [input], by simp, ?_, ?_, ?_⟩
    · rw [forall_mem_append]
      exact ⟨hcourse.1, hcourse.2.2⟩
    · rw [map_append, ← hreports, hcourse.2.1.report? hr]
      rfl
    · refine .trans ?_ hperm
      simp only [map_append, map_cons, append_assoc, cons_append]
      refine .append_left _ (.append_left _ ?_)
      rw [← append_assoc]
      exact perm_append_singleton _ _

/-- When all work is done, each input has been told of as if it had been built alone. -/
theorem WorksOff.reports {workers : Nat} {inputs' : List Path} {crew : Crew}
    (hperm : inputs'.Perm inputs) (hcrew : b.WorksOff workers t inputs' crew) :
    ∃ told : List Path, told.Perm inputs ∧ crew.reports = told.map (b.alone t) := by
  have hfirst : b.OnTrack t inputs ⟨t, inputs', [], []⟩ :=
    ⟨Filled.refl h.proper.rooted, [], [], rfl, by simp, rfl, by simpa using hperm⟩
  have htrack : b.OnTrack t inputs crew := by
    have hreaches := hcrew.reaches
    clear hcrew
    induction hreaches with
    | refl => exact hfirst
    | tail _ hstep ih => exact ih.step h hc hi hstep
  obtain ⟨-, held, told, hjobs, -, hreports, hperm'⟩ := htrack
  rw [hcrew.jobs, map_eq_nil_iff] at hjobs
  refine ⟨told, ?_, hreports⟩
  simpa [hcrew.queue, hjobs] using hperm'

end Track

section Settling
variable {reports reports' : List FileReport}

theorem pairwise_sorted (reports : List FileReport) :
    (reports.mergeSort fun x y => x.input.compare y.input != .gt).Pairwise
      fun x y => (x.input.compare y.input).isLE := by
  have hle : (fun x y : FileReport => x.input.compare y.input != .gt) =
      fun x y => (x.input.compare y.input).isLE := by
    funext x y
    cases x.input.compare y.input <;> rfl
  rw [hle]
  refine pairwise_mergeSort (fun _ _ _ => TransCmp.isLE_trans) (fun x y => ?_) reports
  have hswap : y.input.compare x.input = (x.input.compare y.input).swap := OrientedCmp.eq_swap
  rw [hswap]
  cases x.input.compare y.input <;> rfl

/-- What is found wrong with files that have just been built does not depend on the tree. -/
theorem rejectShared_congr (hcached : ∀ r ∈ reports, r.cached = false) (t u : FileTree) :
    (b.rejectShared u reports).1 = (b.rejectShared t reports).1 := by
  have howned : ∀ r ∈ reports, (r, b.ownedOutputs u r) = (r, b.ownedOutputs t r) := by
    intro r hr
    simp [ownedOutputs, hcached r hr]
  simp only [rejectShared, map_congr_left howned]

theorem inputs_rejectShared (t : FileTree) (reports : List FileReport) :
    (b.rejectShared t reports).1.map FileReport.input = reports.map FileReport.input := by
  have hinput : ∀ (r : FileReport) (faults : List String), (if faults.isEmpty then r else
      { r with errors := r.errors ++ faults, cached := false }).input = r.input := by
    intro r faults
    split <;> rfl
  simp only [rejectShared, List.map_map, Function.comp_def, hinput]
  rw [← Function.comp_def (f := fun x : FileReport × List Path => x.1.input) (g := Prod.fst),
    ← List.map_map, List.zipIdx_map_fst, List.map_map]
  rfl

/-- Settling forgets the order of reports that have just been made. -/
theorem settle_of_perm (hperm : reports'.Perm reports) (hcached : ∀ r ∈ reports, r.cached = false)
    (hinputs : ∀ r ∈ reports, ∀ r' ∈ reports, r.input.compare r'.input = .eq → r = r')
    (t u : FileTree) : (b.settle u reports').1 = (b.settle t reports).1 := by
  have hsorted := (mergeSort_perm reports' fun x y => x.input.compare y.input != .gt).trans
    (hperm.trans (mergeSort_perm reports fun x y => x.input.compare y.input != .gt).symm)
  have hsame := hsorted.eq_of_pairwise (fun r r' hr hr' hle hge => hinputs r
    (hperm.subset (mem_mergeSort.1 hr)) r' (mem_mergeSort.1 hr')
    (OrientedCmp.isLE_antisymm hle hge)) (pairwise_sorted reports') (pairwise_sorted reports)
  simp only [settle, hsame]
  rw [rejectShared_congr (fun r hr => hcached r (mem_mergeSort.1 hr)) t u]

/-- Reports on files that have just been built, in the order of their paths, and which of the files
are built in the end. -/
def Settled (b : Builder) (t : FileTree) (reports : List FileReport) (built : List Bool) : Prop :=
  (∀ r ∈ reports, r.cached = false) ∧ reports.Pairwise (fun x y => x.input.compare y.input = .lt) ∧
    (b.rejectShared t reports).1.map FileReport.succeeded = built

instance (b : Builder) (t : FileTree) (reports : List FileReport) (built : List Bool) :
    Decidable (b.Settled t reports built) := instDecidableAnd

theorem Settled.of_perm (h : b.Settled t reports built) (hc : b.config.compile = false)
    (hi : b.config.incremental = false) (hperm : (b.buildFiles (.ofTree t) inputs).1.Perm reports) :
    (b.run (.ofTree t) inputs).1.files.map FileReport.succeeded = built := by
  obtain ⟨hcached, hsorted, hbuilt⟩ := h
  obtain ⟨told, t', hbuild, -⟩ := reaches_buildFiles hc hi Nat.one_pos t inputs []
  have hsymm : Symm fun r r' : FileReport => r.input.compare r'.input = .eq → r = r' :=
    ⟨fun _ _ h heq => (h (OrientedCmp.eq_comm.1 heq)).symm⟩
  have hinputs : ∀ r ∈ reports, ∀ r' ∈ reports, r.input.compare r'.input = .eq → r = r' :=
    (hsorted.imp fun hlt heq => by cases hlt.symm.trans heq).forall_of_forall fun _ _ _ => rfl
  have hle : reports.Pairwise fun x y => (x.input.compare y.input != .gt) = true :=
    hsorted.imp fun hlt => by simp [hlt]
  rw [hbuild] at hperm
  rw [run_of_buildFiles hbuild, settle_of_perm hperm hcached hinputs t t', settle,
    mergeSort_of_pairwise hle]
  exact hbuilt

/-- Two inputs whose order shows in which of them are built. -/
theorem run_ne_of_settled {p q : Path} {built' : List Bool} (hc : b.config.compile = false)
    (hi : b.config.incremental = false) (h : b.Settled t (b.buildFiles (.ofTree t) [p, q]).1 built)
    (h' : b.Settled t (b.buildFiles (.ofTree t) [q, p]).1.reverse built') (hne : built ≠ built') :
    (b.run (.ofTree t) [p, q]).1 ≠ (b.run (.ofTree t) [q, p]).1 := by
  have hbuilt := h.of_perm hc hi (.refl _)
  have hbuilt' := h'.of_perm hc hi (reverse_perm _).symm
  intro heq
  rw [heq] at hbuilt
  exact hne (hbuilt.symm.trans hbuilt')

end Settling

section Reports
variable (h : b.Apart t inputs)
include h

theorem Apart.nodup_canonical : (inputs.map t.canonical).Nodup := by
  obtain ⟨canonicals, hmap, hnodup⟩ := h.distinct
  rw [hmap]
  exact hnodup.map fun _ _ => Except.ok.inj

theorem Apart.eq_of_compare {input' : Path} (hinput : input ∈ inputs) (hinput' : input' ∈ inputs)
    (hcompare : input.compare input' = .eq) : input = input' := by
  obtain ⟨canonical, hc⟩ := h.exists_canonical hinput
  obtain ⟨canonical', hc'⟩ := h.exists_canonical hinput'
  have hkey : t.keyOf input = t.keyOf input' := by
    rw [keyOf_eq_foldl, keyOf_eq_foldl, Path.components_of_compare hcompare]
  refine inj_on_of_nodup_map h.nodup_canonical hinput hinput' ?_
  rw [hc, hc', (canonical_eq_ok.1 hc).2, (canonical_eq_ok.1 hc').2, hkey]

variable (hc : b.config.compile = false) (hi : b.config.incremental = false)
include hc hi

theorem Apart.isOn (hinput : input ∈ inputs) : (b.alone t input).IsOn input := by
  obtain ⟨canonical, hcanonical⟩ := h.exists_canonical hinput
  exact (h.comes hc hi hinput hcanonical).2

/-- What is told of inputs that are built alone is settled the same way in any order. -/
theorem Apart.settle_alone {told : List Path} (hperm : told.Perm inputs) (u : FileTree) :
    (b.settle u (told.map (b.alone t))).1 = (b.settle t (inputs.map (b.alone t))).1 := by
  refine settle_of_perm (hperm.map _) ?_ ?_ t u
  · rw [forall_mem_map]
    exact fun input hinput => (h.isOn hc hi hinput).2
  · simp only [forall_mem_map]
    intro input hinput input' hinput' hcompare
    rw [(h.isOn hc hi hinput).1, (h.isOn hc hi hinput').1] at hcompare
    rw [h.eq_of_compare hinput hinput' hcompare]

/-- Each input is reported on once, in the order of the paths. -/
theorem Apart.inputs_settle (u : FileTree) :
    ((b.settle u (inputs.map (b.alone t))).1.files.map FileReport.input).Perm inputs ∧
    ((b.settle u (inputs.map (b.alone t))).1.files.map FileReport.input).Pairwise
      fun p q => p.compare q = .lt := by
  have hon : (inputs.map (b.alone t)).map FileReport.input = inputs := by
    rw [List.map_map]
    exact (map_congr_left fun input hinput => (h.isOn hc hi hinput).1).trans (map_id inputs)
  have hsorted := pairwise_sorted (inputs.map (b.alone t))
  have hperm := (mergeSort_perm (inputs.map (b.alone t)) fun x y =>
    x.input.compare y.input != .gt).map FileReport.input
  simp only [settle, inputs_rejectShared]
  rw [hon] at hperm
  have hle : (List.map FileReport.input _).Pairwise fun p q => (p.compare q).isLE :=
    pairwise_map.2 hsorted
  have hnodup := hperm.nodup_iff.2 h.nodup_canonical.of_map
  refine ⟨hperm, (hle.and hnodup).imp_of_mem fun hp hq hpair => ?_⟩
  refine (Ordering.isLE_iff_eq_lt_or_eq_eq.1 hpair.1).resolve_right fun heq => hpair.2 ?_
  exact h.eq_of_compare (hperm.subset hp) (hperm.subset hq) heq

end Reports

/-- Whatever the number of workers, the order of the inputs and the turns that workers take, what is
reported in the end is the same, and it is what is told of the inputs when each of them is built
alone. There is such a schedule for any number of workers and any order: building one input after
the other. -/
theorem report_eq_of_schedule (h : b.Apart t inputs) (hc : b.config.compile = false)
    (hi : b.config.incremental = false) :
    (∀ (workers : Nat) (inputs' : List Path) (crew : Crew), inputs'.Perm inputs →
      b.WorksOff workers t inputs' crew →
      (b.settle crew.tree crew.reports).1 = (b.run (.ofTree t) inputs).1) ∧
    (∀ (workers : Nat) (inputs' : List Path), 0 < workers → inputs'.Perm inputs →
      ∃ crew, b.WorksOff workers t inputs' crew ∧ b.run (.ofTree t) inputs' =
        ((b.settle crew.tree crew.reports).1, .ofTree (b.settle crew.tree crew.reports).2)) ∧
    (b.run (.ofTree t) inputs).1 = (b.settle t (inputs.map (b.alone t))).1 ∧
    ((b.run (.ofTree t) inputs).1.files.map FileReport.input).Perm inputs ∧
    ((b.run (.ofTree t) inputs).1.files.map FileReport.input).Pairwise
      fun p q => p.compare q = .lt := by
  have hsettle : ∀ (workers : Nat) (inputs' : List Path) (crew : Crew), inputs'.Perm inputs →
      b.WorksOff workers t inputs' crew →
      (b.settle crew.tree crew.reports).1 = (b.settle t (inputs.map (b.alone t))).1 := by
    intro workers inputs' crew hperm hcrew
    obtain ⟨told, htold, hreports⟩ := hcrew.reports h hc hi hperm
    rw [hreports]
    exact h.settle_alone hc hi htold crew.tree
  have hrun : (b.run (.ofTree t) inputs).1 = (b.settle t (inputs.map (b.alone t))).1 := by
    obtain ⟨crew, hcrew, hrun⟩ := exists_worksOff_run hc hi Nat.one_pos t inputs
    rw [hrun]
    exact hsettle 1 inputs crew (.refl _) hcrew
  refine ⟨fun workers inputs' crew hperm hcrew => ?_, fun workers inputs' hw _ => ?_, hrun, ?_⟩
  · rw [hrun]
    exact hsettle workers inputs' crew hperm hcrew
  · exact exists_worksOff_run hc hi hw t inputs'
  · rw [hrun]
    exact h.inputs_settle hc hi t

end Independence

/-- Two files, of which one includes a third. -/
def twoInputs : FileTree :=
  ⟨[], [(["inc"], .directory), (["inc", "h"], .file (Text.utf8 "// shared\n") false),
    (["a"], .file (Text.utf8 "#include \"h\"
#comp c\nNUM_THREADS(1,1,1)\nvoid CS_MAIN()\x7bINIT_MAIN;RETURN();\x7d\n#end") false),
    (["b"], .file (Text.utf8 "BEGIN_SRT(S)END_SRT(S)") false)]⟩

def sourcesBuilder : Builder :=
  ⟨{ BuildConfig.standard with
    targets := [.vulkan], compile := false, incremental := false, includePaths := [⟨"inc"⟩] }, []⟩

theorem twoInputs_eq : [⟨"a"⟩, ⟨"b"⟩].map twoInputs.canonical = [⟨"/a"⟩, ⟨"/b"⟩].map .ok ∧
    (∀ input ∈ [⟨"a"⟩, ⟨"b"⟩],
      (∀ f ∈ (ShaderFile.load twoInputs sourcesBuilder.config.includePaths input).toOption,
        ∀ os ∈ f.outputs.toOption, ∀ o ∈ os, '/' ∉ o.name.toList) ∧
      ∃ ps ∈ [[⟨"/h"⟩, ⟨"inc/h"⟩], []], (Reading.start twoInputs input).toOption.bind
        (Reading.looksAtAll? twoInputs sourcesBuilder.config.includePaths 30) = some ps) ∧
    ∀ k ∈ [⟨"a"⟩, ⟨"b"⟩].flatMap (sourcesBuilder.placesFor twoInputs), k.length = 3 := by
  decide +kernel

theorem apart_twoInputs : sourcesBuilder.Apart twoInputs [⟨"a"⟩, ⟨"b"⟩] := by
  obtain ⟨hcanonical, hinputs, hplaces⟩ := twoInputs_eq
  have hfar : ∀ k : Key, k.length < 3 → k ∉ sourcesBuilder.places twoInputs [⟨"a"⟩, ⟨"b"⟩] :=
    fun k hk hplace => absurd (hplaces k hplace) hk.ne
  refine ⟨proper_of_nodes rfl (by decide +kernel), ⟨_, hcanonical, by decide⟩, ?_, ?_, ?_⟩
  · intro input hinput f os hload hos
    exact (hinputs input hinput).1 f (by rw [hload]; rfl) os (by rw [hos]; rfl)
  · have hdirs : ∀ dir ∈ [sourcesBuilder.config.outDir, sourcesBuilder.cache.dir],
        twoInputs.Straight (twoInputs.visited dir) ∧ ∀ k ∈ twoInputs.visited dir, k.length < 3 := by
      unfold FileTree.Straight
      decide +kernel
    exact fun dir hdir => (hdirs dir hdir).imp_right fun hshort k hk => hfar k (hshort k hk)
  · have hpaths : ∀ p ∈ [⟨"a"⟩, ⟨"b"⟩] ++ [⟨"/h"⟩, ⟨"inc/h"⟩],
        twoInputs.Straight (twoInputs.visited p) ∧ (twoInputs.keyOf p).length < 3 := by
      unfold FileTree.Straight
      decide +kernel
    intro input hinput p hp
    obtain ⟨ps, hps, hlooks⟩ := (hinputs input hinput).2
    refine (hpaths p ?_).imp_right (hfar _)
    rcases mem_cons.1 (hp.mem hlooks) with rfl | hp
    · exact mem_append_left _ hinput
    · rcases mem_pair.1 hps with rfl | rfl
      · exact mem_append_right _ hp
      · cases hp

/-- Two workers may take the inputs the other way round. -/
theorem report_eq_of_schedule_twoInputs : ∃ crew : Crew,
    sourcesBuilder.WorksOff 2 twoInputs [⟨"b"⟩, ⟨"a"⟩] crew ∧
    (sourcesBuilder.settle crew.tree crew.reports).1 =
      (sourcesBuilder.run (.ofTree twoInputs) [⟨"a"⟩, ⟨"b"⟩]).1 ∧
    sourcesBuilder.Apart twoInputs [⟨"a"⟩, ⟨"b"⟩] := by
  obtain ⟨hschedule, hexists, -⟩ := report_eq_of_schedule apart_twoInputs rfl rfl
  obtain ⟨crew, hcrew, -⟩ := hexists 2 _ (by decide) (.swap _ _ [])
  exact ⟨crew, hcrew, hschedule 2 _ crew (.swap _ _ []) hcrew, apart_twoInputs⟩

/-- Inputs are different files, whose outputs have plain names and which are not read from the
directories of the build. -/
def KeepsOff (b : Builder) (t : FileTree) (inputs : List Path) : Prop :=
  (inputs.map fun input => (t.canonical input).toOption).Nodup ∧
  ∀ input ∈ inputs, (t.canonical input).toOption.isSome ∧
    ∀ f ∈ (ShaderFile.load t b.config.includePaths input).toOption,
      (∀ os ∈ f.outputs.toOption, ∀ o ∈ os, '/' ∉ o.name.toList) ∧
      ∀ p ∈ f.source.dependencies, ∀ dir ∈ [b.config.outDir, b.cache.dir],
        ¬ t.keyOf dir <+: t.keyOf p

instance (b : Builder) (t : FileTree) (inputs : List Path) : Decidable (b.KeepsOff t inputs) :=
  instDecidableAnd

/-- A file includes another by a path that leads through the output directory and back. -/
def leadingBack : FileTree :=
  ⟨[], [(["a"], .file (Text.utf8 "#include \"out/../h\"") false), (["b"], .file [] false),
    (["h"], .file [] false)]⟩

/-- A file for which nothing is generated, and one with a table. -/
def plainAndTable : FileTree :=
  ⟨[], [(["a"], .file [] false), (["b"], .file (Text.utf8 "BEGIN_SRT(S)END_SRT(S)") false)]⟩

/-- Rows are kept below a path at which a file is generated. -/
def rowsBelowFile : Builder :=
  ⟨{ sourcesBuilder.config with cacheDir := some ⟨"out/reflection/S.srt.h"⟩ }, []⟩

/-- The order of the inputs shows in the report, although they keep off the directories of the
build: an include may be found only when the output directory has been made, and a file may stand
where a directory is to be made. -/
theorem report_ne_of_order :
    ((∀ t ∈ [leadingBack, (sourcesBuilder.buildFile (.ofTree leadingBack) ⟨"b"⟩).2.tree],
        sourcesBuilder.KeepsOff t [⟨"a"⟩, ⟨"b"⟩]) ∧
      (sourcesBuilder.run (.ofTree leadingBack) [⟨"a"⟩, ⟨"b"⟩]).1 ≠
        (sourcesBuilder.run (.ofTree leadingBack) [⟨"b"⟩, ⟨"a"⟩]).1) ∧
    (∀ t ∈ [plainAndTable, (rowsBelowFile.buildFile (.ofTree plainAndTable) ⟨"a"⟩).2.tree,
        (rowsBelowFile.buildFile (.ofTree plainAndTable) ⟨"b"⟩).2.tree],
        rowsBelowFile.KeepsOff t [⟨"a"⟩, ⟨"b"⟩]) ∧
      (rowsBelowFile.run (.ofTree plainAndTable) [⟨"a"⟩, ⟨"b"⟩]).1 ≠
        (rowsBelowFile.run (.ofTree plainAndTable) [⟨"b"⟩, ⟨"a"⟩]).1 := by
  refine ⟨⟨by decide +kernel, ?_⟩, by decide +kernel, ?_⟩
  · have hne : [false, true] ≠ [true, true] := by decide
    exact run_ne_of_settled rfl rfl (by decide +kernel) (by decide +kernel) hne
  · have hne : [true, false] ≠ [false, false] := by decide
    exact run_ne_of_settled rfl rfl (by decide +kernel) (by decide +kernel) hne

end Builder
end ShaderDialect
