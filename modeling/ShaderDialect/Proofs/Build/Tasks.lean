import ShaderDialect.Proofs.Build.Plan

/-! The work on an input as a task that is done step by step, so that other tasks can be worked on
in between. A task that is done at one go comes to what building its input comes to. -/
namespace ShaderDialect
open FileReport FileTree List

/-- What is left to do for an input. Each step looks at the tree or puts a file in place, and what
is to be done next depends on what comes of it. -/
inductive Task
  /-- The input has been built, and that has been recorded. -/
  | built (x : Build)
  /-- Something is wrong with the input, or with some target. -/
  | failed (report : FileReport)
  | look (next : FileTree → Task)
  | place (path : Path) (content : List UInt8) (next : Except Failure Unit → Task)

def TargetStatus.ofResult : Except Failure Unit → TargetStatus
  | .ok () => .built
  | .error e => .failed e.message

namespace Task

/-- What is told of an input for which nothing is left to do. -/
def report? : Task → Option FileReport
  | built x => some x.report
  | failed report => some report
  | look _ | place _ _ _ => none

def finish : Task → FileTree → Task × FileTree
  | built x, t => (built x, t)
  | failed report, t => (failed report, t)
  | look next, t => (next t).finish t
  | place p content next, t => (next (t.attempt p content).1).finish (t.attempt p content).2

/-- What is told when a task is done, and the state that it leaves the build in. -/
def told (x : Task × FileTree) : Option FileReport × BuildState := (x.1.report?, .ofTree x.2)

def write : Files → (Except Failure Unit → Task) → Task
  | [], next => next (.ok ())
  | f :: fs, next => place f.1 f.2 fun
    | .ok () => write fs next
    | .error e => next (.error e)

def writeParts : List Files → List Path → (Except Failure Unit → List Path → Task) → Task
  | [], listed, next => next (.ok ()) listed
  | part :: parts, listed, next => write part fun
    | .ok () => writeParts parts (listed ++ part.map Prod.fst) next
    | .error e => next (.error e) listed

theorem finish_write (fs : Files) (next : Except Failure Unit → Task) (t : FileTree) :
    (write fs next).finish t = (next (t.placeEach fs).1).finish (t.placeEach fs).2 := by
  induction fs generalizing t with
  | nil => rfl
  | cons f fs ih =>
    rw [write, finish, placeEach]
    rcases t.attempt f.1 f.2 with ⟨_ | _, t₁⟩
    · rfl
    · exact ih t₁

theorem finish_writeParts (parts : List Files) (listed : List Path)
    (next : Except Failure Unit → List Path → Task) (t : FileTree) :
    (writeParts parts listed next).finish t =
      (next (t.placeParts parts listed).1 (t.placeParts parts listed).2.2).finish
        (t.placeParts parts listed).2.1 := by
  induction parts generalizing t listed with
  | nil => rfl
  | cons part parts ih =>
    rw [writeParts, finish_write, placeParts]
    rcases t.placeEach part with ⟨_ | _, t₁⟩
    · rfl
    · exact ih _ t₁

end Task

/-- What is told of an input when the work on it ends, and the state that the build is in. -/
def Building.ended : Except Failure Unit × FileWork → Option FileReport × BuildState
  | (.ok (), w) => (some w.report, w.build)
  | (.error e, w) => (some (w.report.stoppedBy e), w.build)

namespace Builder
variable (tables : List ResourceTable)

open Building

section Definitions
variable (b : Builder)

def reflectTask : List ResourceTable → FileReport → (FileReport → Task) → Task
  | [], r, next => next r
  | table :: tables, r, next => .write (b.tableFiles table) fun
    | .ok () => reflectTask tables (r.addReflection ((b.tableFiles table).map Prod.fst)) next
    | .error e => .failed (r.stoppedBy e)

/-- Builds targets, and goes on whether they are built or not. -/
def targetsTask (f : ShaderFile) (os : List Output) :
    List Target → FileReport → (FileReport → Task) → Task
  | [], r, next => next r
  | target :: targets, r, next =>
    let plan := b.planTarget f target os
    .writeParts plan.parts [] fun result listed =>
      let status := TargetStatus.ofResult (result >>= fun _ => plan.answer)
      targetsTask f os targets (r.addTargets [⟨target, status, listed⟩]) next

def recordTask (x : Build) : Task :=
  if x.report.succeeded then
    .place (b.cache.rowPath x.canonical) (Text.utf8 (x.row b).toJson.pretty) fun
      | .ok () => .built x
      | .error e => .failed (x.report.stoppedBy e)
  else .failed x.report

def task (input : Path) : Task :=
  .look fun t =>
    match t.canonical input with
    | .error e => .failed ((FileReport.start input).stoppedBy (.pathIo input e))
    | .ok canonical => .look fun t =>
      match ShaderFile.load t b.config.includePaths input with
      | .error e => .failed ((FileReport.start input).stoppedBy e)
      | .ok f => .look fun t =>
        match Fingerprint.ofFiles t f.source.dependencies with
        | .error e => .failed ((FileReport.start input).stoppedBy e)
        | .ok fingerprint =>
          b.reflectTask f.tables.tables ⟨input, false, f.tables.faults.map Failure.message, [], []⟩
            fun r =>
              match f.outputs with
              | .error e => .failed (r.stoppedBy e)
              | .ok os => b.targetsTask f os b.config.targets r fun r =>
                b.recordTask ⟨input, canonical, f, fingerprint, r⟩

end Definitions

section Finishing
variable {b : Builder} {t : FileTree} {r : FileReport} {as : List Path} {next : FileReport → Task}

theorem finish_reflectTask (t : FileTree) (r : FileReport) (as : List Path) :
    ∃ result t' r', (tables.forM b.reflectTable).after ⟨.ofTree t, r, as⟩ =
        (result, ⟨.ofTree t', r', as⟩) ∧
      (b.reflectTask tables r next).finish t =
        match result with
        | .ok () => (next r').finish t'
        | .error e => (.failed (r'.stoppedBy e), t') := by
  induction tables generalizing t r with
  | nil => exact ⟨.ok (), t, r, rfl, rfl⟩
  | cons table tables ih =>
    rw [after_forM_cons, reflectTable_eq, after_bind, after_forM_place_eq, reflectTask,
      Task.finish_write]
    rcases t.placeEach (b.tableFiles table) with ⟨e | _, t₁⟩
    · exact ⟨.error e, t₁, r, rfl, rfl⟩
    · exact ih t₁ _

theorem finish_targetsTask (hc : b.config.compile = false) {f : ShaderFile} {os : List Output}
    (targets : List Target) (t : FileTree) (r : FileReport) (as : List Path) :
    ∃ t' r' as', (targets.forM (b.reportTarget f os)).after ⟨.ofTree t, r, as⟩ =
        (.ok (), ⟨.ofTree t', r', as'⟩) ∧
      (b.targetsTask f os targets r next).finish t = (next r').finish t' := by
  induction targets generalizing t r as with
  | nil => exact ⟨t, r, as, rfl, rfl⟩
  | cons target targets ih =>
    rw [after_forM_cons, after_reportTarget, carries_buildTarget hc os t r [], targetsTask,
      Task.finish_writeParts]
    rcases t.placeParts (b.planTarget f target os).parts [] with ⟨_ | _, t₁, listed⟩
    · exact ih t₁ _ _
    · cases (b.planTarget f target os).answer with
      | error e => exact ih t₁ _ _
      | ok u => exact ih t₁ _ _

theorem told_recordTask (x : Build) (t : FileTree) :
    Task.told ((b.recordTask x).finish t) =
      ended ((b.conclude x.canonical x.file x.fingerprint).after ⟨.ofTree t, x.report, as⟩) := by
  rw [conclude, after_get_bind, recordTask, Build.row, rowOf]
  by_cases hs : x.report.succeeded = true
  · rw [if_pos hs, if_pos hs, after_place, Task.finish]
    generalize Text.utf8 _ = content
    cases hp : t.place (b.cache.rowPath x.canonical) content with
    | error e =>
      rw [attempt_of_error hp]
      rfl
    | ok t' =>
      rw [attempt_of_ok hp]
      rfl
  · rw [if_neg hs, if_neg hs]
    rfl

variable {input : Path}

/-- A task that is done at one go tells what building its input comes to. -/
theorem told_task (hc : b.config.compile = false) {t : FileTree} {canonical : Path}
    (hcanonical : t.canonical input = .ok canonical) : Task.told ((b.task input).finish t) =
      ended ((b.rebuild input canonical).after ⟨.ofTree t, .start input, []⟩) := by
  rw [task, Task.finish, hcanonical]
  rw [rebuild_eq, produce, bind_assoc, after_bind_of_ok after_checkCancelled,
    bind_assoc, Task.finish]
  cases hload : ShaderFile.load t b.config.includePaths input with
  | error e =>
    rw [after_bind_of_error (by rw [after_readFile, hload])]
    rfl
  | ok f =>
  rw [after_bind_of_ok (by rw [after_readFile, hload]), bind_assoc]
  simp only [Task.finish]
  cases hprint : Fingerprint.ofFiles t f.source.dependencies with
  | error e =>
    rw [after_bind_of_error (by rw [after_fingerprint, hprint])]
    rfl
  | ok fp =>
  rw [after_bind_of_ok (by rw [after_fingerprint, hprint]), bind_assoc,
    after_bind_of_ok (after_addFaults f.tables.faults), bind_assoc]
  obtain ⟨result, t₁, r₁, htables, hfinish⟩ := finish_reflectTask f.tables.tables t
    ⟨input, false, f.tables.faults.map Failure.message, [], []⟩ []
  simp only
  rw [hfinish]
  cases result with
  | error e =>
    rw [after_bind_of_error htables]
    rfl
  | ok u =>
  rw [after_bind_of_ok htables, bind_assoc]
  simp only
  cases hos : f.outputs with
  | error e =>
    rw [after_bind_of_error (after_lift _)]
    rfl
  | ok os =>
  obtain ⟨t₂, r₂, as₂, htargets, hfinish⟩ := finish_targetsTask hc b.config.targets t₁ r₁ []
  rw [after_bind_of_ok (after_lift _), bind_assoc, after_bind_of_ok htargets, pure_bind, hfinish]
  exact told_recordTask ⟨input, canonical, f, fp, r₂⟩ t₂

theorem buildFile_of_not_isFresh (hc : b.config.compile = false) {t : FileTree}
    (hfresh : ∀ canonical, t.canonical input = .ok canonical →
      (b.config.incremental && b.cache.isFresh t canonical b.arguments) = false) :
    ∃ r, ((b.task input).finish t).1.report? = some r ∧
      b.buildFile (.ofTree t) input = (r, .ofTree ((b.task input).finish t).2) := by
  have htold : Task.told ((b.task input).finish t) =
      ended ((b.buildInput input).after ⟨.ofTree t, .start input, []⟩) := by
    rw [after_buildInput]
    cases hcanonical : t.canonical input with
    | error e =>
      rw [task, Task.finish, hcanonical]
      rfl
    | ok canonical => simp only [hfresh canonical hcanonical, Bool.false_eq_true, if_false,
        told_task hc hcanonical]
  rw [buildFile_ofTree]
  rcases hw : (b.buildInput input).after ⟨.ofTree t, .start input, []⟩ with ⟨e | _, w⟩ <;>
    rw [hw] at htold
  · have hbuild : .ofTree ((b.task input).finish t).2 = w.build := congrArg Prod.snd htold
    exact ⟨w.report.stoppedBy e, congrArg Prod.fst htold, by rw [hbuild]⟩
  · have hbuild : .ofTree ((b.task input).finish t).2 = w.build := congrArg Prod.snd htold
    exact ⟨w.report, congrArg Prod.fst htold, by rw [hbuild]⟩

theorem buildFile_eq (hc : b.config.compile = false) (hi : b.config.incremental = false)
    (t : FileTree) (input : Path) : ∃ r, ((b.task input).finish t).1.report? = some r ∧
      b.buildFile (.ofTree t) input = (r, .ofTree ((b.task input).finish t).2) :=
  buildFile_of_not_isFresh hc fun _ _ => by simp [hi]

end Finishing

section Generating
variable (b : Builder) (f : ShaderFile)

def reflected : Files := f.tables.tables.flatMap b.tableFiles

def targeted : Files :=
  match f.outputs with
  | .ok os => b.config.targets.flatMap fun target => (b.planTarget f target os).files
  | .error _ => []

/-- All that is generated for a file, in the order in which it is put in place. -/
def generated : Files := b.reflected f ++ b.targeted f

theorem endsIn_reflected : ∀ file ∈ b.reflected f, file.1.EndsIn tableEndings := by
  have hjson : ".srt.json" ∈ tableEndings := by decide
  have hheader : ".srt.h" ∈ tableEndings := by decide
  intro file hfile
  obtain ⟨table, -, hfile⟩ := mem_flatMap.1 hfile
  simp only [tableFiles, mem_cons, not_mem_nil, or_false] at hfile
  rcases hfile with rfl | rfl
  · exact Path.endsIn_joinName _ table.name hjson (by decide)
  · exact Path.endsIn_joinName _ table.name hheader (by decide)

theorem endsIn_targeted : ∀ file ∈ b.targeted f, file.1.EndsIn targetEndings := by
  intro file hfile
  unfold targeted at hfile
  split at hfile
  · next os _ =>
    obtain ⟨target, -, hfile⟩ := mem_flatMap.1 hfile
    exact within_planTarget os file hfile
  · cases hfile

theorem isArtifact_generated : ∀ file ∈ b.generated f, file.1.IsArtifact := by
  intro file hfile
  rcases mem_append.1 hfile with hfile | hfile
  · exact (b.endsIn_reflected f file hfile).isArtifact (by decide)
  · exact (b.endsIn_targeted f file hfile).isArtifact (by decide)

theorem mem_artifacts_generated : ∀ p ∈ (b.generated f).map Prod.fst, p.IsArtifact := by
  intro p hp
  obtain ⟨file, hfile, rfl⟩ := mem_map.1 hp
  exact b.isArtifact_generated f file hfile

/-- What is told of a file if all that is generated for it has been put in place. -/
def reportOn (input : Path) (os : List Output) : FileReport :=
  ((FileReport.mk input false (f.tables.faults.map Failure.message) [] []).addReflection
    ((b.reflected f).map Prod.fst)).addTargets (b.config.targets.map fun target =>
      ⟨target, .built, (b.planTarget f target os).files.map Prod.fst⟩)

/-- Nothing is wrong with a file, its outputs or what is generated for them. -/
structure Faultless (os : List Output) : Prop where
  faults : f.tables.faults = []
  outputs : f.outputs = .ok os
  answers : ∀ target ∈ b.config.targets, (b.planTarget f target os).answer = .ok ()

variable {b f} {os : List Output}

theorem targeted_of_outputs (hos : f.outputs = .ok os) : b.targeted f =
    b.config.targets.flatMap fun target => (b.planTarget f target os).files := by
  simp [targeted, hos]

theorem artifacts_reportOn (hos : f.outputs = .ok os) (input : Path) :
    (b.reportOn f input os).artifacts = (b.generated f).map Prod.fst := by
  simp [artifacts, targetArtifacts, reportOn, addTargets,
    addReflection, generated, targeted_of_outputs hos, flatMap_map, map_flatMap]

theorem succeeded_reportOn (input : Path) :
    (b.reportOn f input os).succeeded = true ↔ f.tables.faults = [] := by
  simp [succeeded_iff, reportOn, addReflection, addTargets]

end Generating

section Outcomes
variable {b : Builder} {f : ShaderFile} {os : List Output} {t : FileTree} {r : FileReport}
  {next : FileReport → Task}

theorem finish_reflectTask_cases (t : FileTree) (r : FileReport) :
    (∃ t', t.placeAll (tables.flatMap b.tableFiles) = .ok t' ∧
      (b.reflectTask tables r next).finish t =
        (next (r.addReflection ((tables.flatMap b.tableFiles).map Prod.fst))).finish t') ∨
    (∀ u, t.placeAll (tables.flatMap b.tableFiles) ≠ .ok u) ∧
      ∃ r' : FileReport, ∃ e t', t.PlacesSome (tables.flatMap b.tableFiles) t' ∧
        r'.cached = r.cached ∧
        (b.reflectTask tables r next).finish t = (.failed (r'.stoppedBy e), t') := by
  induction tables generalizing t r with
  | nil => exact .inl ⟨t, placeAll_nil.2 rfl, by simp [reflectTask, addReflection]⟩
  | cons table tables ih =>
    rw [reflectTask, Task.finish_write, flatMap_cons]
    rcases t.placeEach_cases (b.tableFiles table) with
      ⟨t₁, hall, heach⟩ | ⟨e, t', hnot, hsome, heach⟩ <;>
      rw [heach]
    · rcases ih t₁ (r.addReflection ((b.tableFiles table).map Prod.fst)) with
        ⟨t', h, hfinish⟩ | ⟨hnot, r', e, t', hsome, hcached, hfinish⟩
      · refine .inl ⟨t', placeAll_append.2 ⟨t₁, hall, h⟩, hfinish.trans ?_⟩
        simp [addReflection]
      · exact .inr ⟨ne_of_placeAll_append hall hnot, r', e, t',
          (placesSome_of_placeAll hall).append hsome, hcached, hfinish⟩
    · refine .inr ⟨fun u hu => ?_, r, e, t', hsome.append placesSome_nil, rfl, rfl⟩
      obtain ⟨t₁, h₁, -⟩ := placeAll_append.1 hu
      exact hnot t₁ h₁

theorem finish_targetsTask_cases (targets : List Target) (t : FileTree) (r : FileReport) :
    ((∀ target ∈ targets, (b.planTarget f target os).answer = .ok ()) ∧
      ∃ t', t.placeAll (targets.flatMap fun target => (b.planTarget f target os).files) = .ok t' ∧
        (b.targetsTask f os targets r next).finish t =
          (next (r.addTargets (targets.map fun target =>
          ⟨target, .built, (b.planTarget f target os).files.map Prod.fst⟩))).finish t') ∨
    ((∀ target ∈ targets, (b.planTarget f target os).answer = .ok ()) → ∀ u,
        t.placeAll (targets.flatMap fun target => (b.planTarget f target os).files) ≠ .ok u) ∧
      ∃ r' t', t.PlacesSome (targets.flatMap fun target => (b.planTarget f target os).files) t' ∧
        r'.cached = r.cached ∧ r'.succeeded = false ∧
        (b.targetsTask f os targets r next).finish t = (next r').finish t' := by
  induction targets generalizing t r with
  | nil => exact .inl ⟨by simp, t, placeAll_nil.2 rfl, by simp [targetsTask, addTargets]⟩
  | cons target targets ih =>
    have hbad : ∀ message listed,
        (r.addTargets [⟨target, .failed message, listed⟩]).succeeded = false := by
      simp [succeeded, addTargets]
    -- After a target that is not built, the others are tried, and the report is that of a failure.
    have hfailed : ∀ {r₁ : FileReport} {t₁ : FileTree}, r₁.cached = r.cached →
        r₁.succeeded = false → t.PlacesSome (b.planTarget f target os).files t₁ →
        ∃ r' t', t.PlacesSome ((target :: targets).flatMap fun target =>
            (b.planTarget f target os).files) t' ∧ r'.cached = r.cached ∧ r'.succeeded = false ∧
          (b.targetsTask f os targets r₁ next).finish t₁ = (next r').finish t' := by
      intro r₁ t₁ hcached hnot hsome
      rcases ih t₁ r₁ with ⟨-, t', hall, hfinish⟩ | ⟨-, r', t', hrest, hcached', hnot', hfinish⟩
      · exact ⟨r₁.addTargets _, t', hsome.append (placesSome_of_placeAll hall), hcached,
          not_succeeded_addTargets hnot _, hfinish⟩
      · exact ⟨r', t', hsome.append hrest, hcached'.trans hcached, hnot', hfinish⟩
    rw [targetsTask, Task.finish_writeParts, flatMap_cons]
    rcases t.placeParts_cases (b.planTarget f target os).parts [] with
      ⟨t₁, hall, hparts⟩ | ⟨e, t₁, listed, hnot, hsome, hparts⟩ <;> rw [hparts]
    · cases hanswer : (b.planTarget f target os).answer with
      | error e =>
        refine .inr ⟨fun h => ?_, hfailed rfl (hbad _ _) (placesSome_of_placeAll hall)⟩
        cases hanswer.symm.trans (h target mem_cons_self)
      | ok u =>
        rcases ih t₁
          (r.addTargets [⟨target, .built, (b.planTarget f target os).files.map Prod.fst⟩])
          with ⟨hanswers, t', h, hfinish⟩ | ⟨hnot, r', t', hsome, hcached, hnot', hfinish⟩
        · refine .inl ⟨forall_mem_cons.2 ⟨hanswer, hanswers⟩, t',
            placeAll_append.2 ⟨t₁, hall, h⟩, hfinish.trans ?_⟩
          simp [addTargets]
        · exact .inr ⟨fun h => ne_of_placeAll_append hall
            (hnot fun target htarget => h target (mem_cons_of_mem _ htarget)), r', t',
            (placesSome_of_placeAll hall).append hsome, hcached, hnot', hfinish⟩
    · refine .inr ⟨fun _ u hu => ?_, hfailed rfl (hbad _ _) hsome⟩
      obtain ⟨t₂, h₂, -⟩ := placeAll_append.1 hu
      exact hnot t₂ h₂

theorem finish_recordTask {x : Build} (hs : x.report.succeeded = true) (t : FileTree) :
    (∃ t', b.cache.record t (x.row b) = .ok t' ∧ (b.recordTask x).finish t = (.built x, t')) ∨
      ∃ e, b.cache.record t (x.row b) = .error e ∧
        (b.recordTask x).finish t = (.failed (x.report.stoppedBy e), t) := by
  rw [recordTask, if_pos hs, Task.finish]
  cases hp : t.place (b.cache.rowPath x.canonical) (Text.utf8 (x.row b).toJson.pretty) with
  | error e =>
    rw [attempt_of_error hp]
    exact .inr ⟨e, hp, rfl⟩
  | ok t' =>
    rw [attempt_of_ok hp]
    exact .inl ⟨t', hp, rfl⟩

theorem finish_recordTask_of_not_succeeded {x : Build} (hs : x.report.succeeded = false)
    (t : FileTree) : (b.recordTask x).finish t = (.failed x.report, t) := by
  rw [recordTask, if_neg (by simp [hs])]
  rfl

variable {input canonical : Path} {fp : String}

/-- A file that has been read is recorded once all that is generated for it is in place, unless
something is wrong with it or a file is refused. -/
theorem finish_task_of_load (hcanonical : t.canonical input = .ok canonical)
    (hload : ShaderFile.load t b.config.includePaths input = .ok f)
    (hprint : Fingerprint.ofFiles t f.source.dependencies = .ok fp) :
    (∃ os t₁, b.Faultless f os ∧ t.placeAll (b.generated f) = .ok t₁ ∧
      (b.task input).finish t =
        (b.recordTask ⟨input, canonical, f, fp, b.reportOn f input os⟩).finish t₁) ∨
    (∀ os, b.Faultless f os → ∀ u, t.placeAll (b.generated f) ≠ .ok u) ∧
      ∃ r t', t.PlacesSome (b.generated f) t' ∧ r.cached = false ∧ r.succeeded = false ∧
        (b.task input).finish t = (.failed r, t') := by
  simp only [task, Task.finish, hcanonical, hload, hprint]
  rcases finish_reflectTask_cases f.tables.tables t
      ⟨input, false, f.tables.faults.map Failure.message, [], []⟩ with
    ⟨t₁, hall, hfinish⟩ | ⟨hnot, r, e, t', hsome, hcached, hfinish⟩ <;> rw [hfinish]
  · cases hos : f.outputs with
    | error e =>
      refine .inr ⟨fun os h => ?_, _, t₁,
        (placesSome_of_placeAll hall).append placesSome_nil, rfl,
        not_succeeded_stoppedBy _ e, rfl⟩
      cases hos.symm.trans h.outputs
    | ok os =>
    have hgenerated : b.generated f = f.tables.tables.flatMap b.tableFiles ++
        b.config.targets.flatMap fun target => (b.planTarget f target os).files := by
      rw [generated, targeted_of_outputs hos, reflected]
    rw [hgenerated]
    have hplaced := placesSome_of_placeAll hall
    rcases finish_targetsTask_cases b.config.targets t₁ _ with
      ⟨hanswers, t₂, hrest, hfinish⟩ | ⟨hnot, r, t', hsome, hcached, hs, hfinish⟩ <;> rw [hfinish]
    · by_cases hfaults : f.tables.faults = []
      · exact .inl ⟨os, t₂, ⟨hfaults, hos, hanswers⟩, placeAll_append.2 ⟨t₁, hall, hrest⟩, rfl⟩
      · have hs : (b.reportOn f input os).succeeded = false := by
          rwa [← Bool.not_eq_true, succeeded_reportOn]
        exact .inr ⟨fun _ h => absurd h.faults hfaults, b.reportOn f input os, t₂,
          hplaced.append (placesSome_of_placeAll hrest), rfl, hs,
          finish_recordTask_of_not_succeeded hs t₂⟩
    · refine .inr ⟨fun os' h => ?_, r, t', hplaced.append hsome, hcached, hs,
        finish_recordTask_of_not_succeeded hs t'⟩
      cases hos.symm.trans h.outputs
      exact ne_of_placeAll_append hall (hnot h.answers)
  · refine .inr ⟨fun _ _ u hu => ?_, r.stoppedBy e, t', hsome.append placesSome_nil, hcached,
      not_succeeded_stoppedBy r e, rfl⟩
    obtain ⟨t₁, h₁, -⟩ := placeAll_append.1 hu
    exact hnot t₁ h₁

/-- In a tree, an input has been read and built without fault, and that has been recorded. -/
structure Constructs (b : Builder) (t : FileTree) (x : Build) (t' : FileTree) : Prop where
  canonical : t.canonical x.input = .ok x.canonical
  load : ShaderFile.load t b.config.includePaths x.input = .ok x.file
  fingerprint : Fingerprint.ofFiles t x.sources = .ok x.fingerprint
  faultless : ∃ os, b.Faultless x.file os ∧ x.report = b.reportOn x.file x.input os
  recorded : ∃ t₁, t.placeAll (b.generated x.file) = .ok t₁ ∧ b.cache.record t₁ (x.row b) = .ok t'

namespace Constructs
variable {x : Build} {t' : FileTree}

theorem artifacts (h : b.Constructs t x t') :
    x.report.artifacts = (b.generated x.file).map Prod.fst := by
  obtain ⟨os, hf, hreport⟩ := h.faultless
  rw [hreport, artifacts_reportOn hf.outputs]

theorem cached (h : b.Constructs t x t') : x.report.cached = false := by
  obtain ⟨os, -, hreport⟩ := h.faultless
  rw [hreport]
  rfl

theorem succeeded (h : b.Constructs t x t') : x.report.succeeded = true := by
  obtain ⟨os, hf, hreport⟩ := h.faultless
  rw [hreport, succeeded_reportOn]
  exact hf.faults

end Constructs

/-- The task of an input builds and records it, or it fails with some artifacts in place. -/
theorem finish_task_cases (b : Builder) (t : FileTree) (input : Path) :
    (∃ x t', x.input = input ∧ b.Constructs t x t' ∧ (b.task input).finish t = (.built x, t')) ∨
      ∃ fs r t', t.placeAll fs = .ok t' ∧ (∀ p ∈ fs.map Prod.fst, p.IsArtifact) ∧ r.cached = false ∧
        r.succeeded = false ∧ (b.task input).finish t = (.failed r, t') := by
  have hstopped (e : Failure)
      (h : (b.task input).finish t = (.failed ((FileReport.start input).stoppedBy e), t)) :
      ∃ fs r t', t.placeAll fs = .ok t' ∧ (∀ p ∈ fs.map Prod.fst, p.IsArtifact) ∧ r.cached = false ∧
        r.succeeded = false ∧ (b.task input).finish t = (.failed r, t') :=
    ⟨[], _, t, placeAll_nil.2 rfl, by simp, rfl, FileReport.not_succeeded_stoppedBy _ e, h⟩
  cases hcanonical : t.canonical input with
  | error e =>
    exact .inr (hstopped (.pathIo input e) (by simp only [task, Task.finish, hcanonical]))
  | ok canonical =>
  cases hload : ShaderFile.load t b.config.includePaths input with
  | error e => exact .inr (hstopped e (by simp only [task, Task.finish, hcanonical, hload]))
  | ok f =>
  cases hprint : Fingerprint.ofFiles t f.source.dependencies with
  | error e => exact .inr (hstopped e (by simp only [task, Task.finish, hcanonical, hload, hprint]))
  | ok fp =>
  have hartifacts := b.mem_artifacts_generated f
  rcases finish_task_of_load hcanonical hload hprint with
    ⟨os, t₁, hf, hall, hfinish⟩ | ⟨-, r, t', ⟨fs, hfs, hsome⟩, hcached, hs, hfinish⟩
  · have hs : (b.reportOn f input os).succeeded = true := (succeeded_reportOn input).2 hf.faults
    let x : Build := ⟨input, canonical, f, fp, b.reportOn f input os⟩
    rcases @finish_recordTask b x hs t₁ with ⟨t', hrecord, hbuilt⟩ | ⟨e, -, hfailed⟩
    · exact .inl ⟨x, t', rfl, ⟨hcanonical, hload, hprint, ⟨os, hf, rfl⟩, t₁, hall, hrecord⟩,
        hfinish.trans hbuilt⟩
    · exact .inr ⟨_, _, t₁, hall, hartifacts, rfl, not_succeeded_stoppedBy _ e,
        hfinish.trans hfailed⟩
  · exact .inr ⟨fs, r, t', hsome, fun p hp => hartifacts p (map_subset _ hfs hp),
      hcached, hs, hfinish⟩

end Outcomes

/-- What is put in place for an input that is built: what is generated for it, and its row. -/
def logOf (b : Builder) (x : Build) : Files :=
  b.generated x.file ++ [(b.cache.rowPath x.canonical, Text.utf8 (x.row b).toJson.pretty)]

/-- What is known of an input when it has been built: what it was read as was there to be read, all
of its files have been put in place, and its report lists what was generated. -/
structure Makes (b : Builder) (seen : FileTree → Prop) (x : Build) (log : Files) : Prop where
  input : x.report.input = x.input
  read : ∃ t, seen t ∧ ShaderFile.load t b.config.includePaths x.input = .ok x.file
  log : log = b.logOf x
  cached : x.report.cached = false
  reflection : x.report.reflection = (b.reflected x.file).map Prod.fst
  targets : x.report.targetArtifacts = (b.targeted x.file).map Prod.fst

end Builder

/-- Wherever a task ends, having put some files in place already, its report is right. -/
def Task.Fits (b : Builder) (seen : FileTree → Prop) : Files → Task → Prop
  | log, built x => b.Makes seen x log
  | _, failed report => report.cached = false ∧ report.succeeded = false
  | log, look next => ∀ t, seen t → Fits b seen log (next t)
  | log, place p content next =>
    Fits b seen (log ++ [(p, content)]) (next (.ok ())) ∧ ∀ e, Fits b seen log (next (.error e))

section Fitting
variable {task : Task} {targets : List Target} {b : Builder} {seen : FileTree → Prop} {log : Files}

namespace Task

variable {r : FileReport}

theorem fits_failed (h : r.cached = false) (e : Failure) (log : Files) :
    (failed (r.stoppedBy e)).Fits b seen log := ⟨h, r.not_succeeded_stoppedBy e⟩

theorem Fits.cached (h : task.Fits b seen log) (hr : task.report? = some r) : r.cached = false := by
  cases task with
  | built x =>
    cases hr
    exact Builder.Makes.cached h
  | failed report =>
    cases hr
    exact h.1
  | look next => cases hr
  | place p content next => cases hr

theorem Fits.makes (h : task.Fits b seen log) (hr : task.report? = some r)
    (hs : r.succeeded = true) : ∃ x, task = .built x ∧ b.Makes seen x log := by
  cases task with
  | built x => exact ⟨x, rfl, h⟩
  | failed report =>
    cases hr
    cases h.2.symm.trans hs
  | look next => cases hr
  | place p content next => cases hr

theorem fits_write {fs : Files} {next : Except Failure Unit → Task}
    (hok : (next (.ok ())).Fits b seen (log ++ fs))
    (herror : ∀ e log, (next (.error e)).Fits b seen log) : (write fs next).Fits b seen log := by
  induction fs generalizing log with
  | nil => simpa [write] using hok
  | cons f fs ih =>
    refine ⟨ih ?_, fun e => herror e log⟩
    simpa using hok

theorem fits_writeParts {parts : List Files} {listed : List Path}
    {next : Except Failure Unit → List Path → Task}
    (hok : (next (.ok ()) (listed ++ parts.flatten.map Prod.fst)).Fits b seen
    (log ++ parts.flatten)) (herror : ∀ e listed log, (next (.error e) listed).Fits b seen log) :
    (writeParts parts listed next).Fits b seen log := by
  induction parts generalizing log listed with
  | nil => simpa [writeParts] using hok
  | cons part parts ih =>
    refine fits_write (ih ?_) fun e log => herror e listed log
    simpa using hok

end Task

namespace Builder
variable {r : FileReport}

theorem fits_reflectTask {tables : List ResourceTable} {next : FileReport → Task}
    (hr : r.cached = false)
    (h : (next (r.addReflection ((tables.flatMap b.tableFiles).map Prod.fst))).Fits b seen
      (log ++ tables.flatMap b.tableFiles)) : (b.reflectTask tables r next).Fits b seen log := by
  induction tables generalizing r log with
  | nil => simpa [reflectTask, addReflection] using h
  | cons table tables ih =>
    refine Task.fits_write (ih hr ?_) fun e log => Task.fits_failed hr e log
    simpa [addReflection] using h

variable {f : ShaderFile} {os : List Output} {next : FileReport → Task}

theorem fits_targetsTask_of_not_succeeded (hr : r.cached = false) (hs : r.succeeded = false)
    (h : ∀ r log, r.cached = false → r.succeeded = false → (next r).Fits b seen log) :
    (b.targetsTask f os targets r next).Fits b seen log := by
  induction targets generalizing r log with
  | nil => exact h r log hr hs
  | cons target targets ih =>
    exact Task.fits_writeParts (ih hr (not_succeeded_addTargets hs _)) fun _ _ _ =>
      ih hr (not_succeeded_addTargets hs _)

theorem fits_targetsTask (hr : r.cached = false)
    (hbuilt : (next (r.addTargets (targets.map fun target =>
      ⟨target, .built, (b.planTarget f target os).files.map Prod.fst⟩))).Fits b seen
        (log ++ targets.flatMap fun target => (b.planTarget f target os).files))
    (hfailed : ∀ r log, r.cached = false → r.succeeded = false → (next r).Fits b seen log) :
    (b.targetsTask f os targets r next).Fits b seen log := by
  induction targets generalizing r log with
  | nil => simpa [targetsTask, addTargets] using hbuilt
  | cons target targets ih =>
    have hnot : ∀ e listed, (r.addTargets [⟨target, .failed e, listed⟩]).succeeded = false := by
      simp [succeeded, addTargets]
    refine Task.fits_writeParts ?_ fun e listed log =>
      fits_targetsTask_of_not_succeeded hr (hnot _ listed) hfailed
    cases hanswer : (b.planTarget f target os).answer with
    | error e => exact fits_targetsTask_of_not_succeeded hr (hnot _ _) hfailed
    | ok u =>
      have hstatus : TargetStatus.ofResult (.ok () >>= fun _ => .ok u) = .built := rfl
      refine ih hr ?_
      simpa [hstatus, addTargets, Plan.files] using hbuilt

theorem fits_recordTask {x : Build} (hr : x.report.cached = false)
    (h : b.Makes seen x
    (log ++ [(b.cache.rowPath x.canonical, Text.utf8 (x.row b).toJson.pretty)])) :
    (b.recordTask x).Fits b seen log := by
  unfold recordTask
  split
  · exact ⟨h, fun e => Task.fits_failed hr e log⟩
  · next hs => exact ⟨hr, Bool.not_eq_true _ ▸ hs⟩

/-- The task of an input is right from the start. -/
theorem fits_task (input : Path) : (b.task input).Fits b seen [] := by
  have hstart : (FileReport.start input).cached = false := rfl
  intro t _
  dsimp only
  cases t.canonical input with
  | error e => exact Task.fits_failed hstart _ _
  | ok canonical =>
  intro t ht
  dsimp only
  cases hload : ShaderFile.load t b.config.includePaths input with
  | error e => exact Task.fits_failed hstart _ _
  | ok f =>
  intro u _
  dsimp only
  cases Fingerprint.ofFiles u f.source.dependencies with
  | error e => exact Task.fits_failed hstart _ _
  | ok fp =>
  refine fits_reflectTask rfl ?_
  cases hos : f.outputs with
  | error e => exact Task.fits_failed rfl _ _
  | ok os =>
  refine fits_targetsTask rfl (fits_recordTask rfl ?_) fun r log hr hs => ?_
  · refine ⟨rfl, ⟨t, ht, hload⟩, ?_, rfl, ?_, ?_⟩
    · simp [logOf, generated, reflected, targeted, hos]
    · simp [addReflection, addTargets, reflected]
    · simp [targetArtifacts, addReflection, addTargets, targeted, hos,
        flatMap_map, map_flatMap]
  · rw [recordTask, if_neg (by simp [hs])]
    exact ⟨hr, hs⟩

end Builder
end Fitting
end ShaderDialect
