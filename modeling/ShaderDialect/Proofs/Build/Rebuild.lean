import ShaderDialect.Proofs.Build.Work

/-! Building an input: what is reported of it, and the parts of the work on an input that is not up
to date. -/
namespace ShaderDialect

open Success

namespace FileReport

theorem succeeded_iff {r : FileReport} : r.succeeded = true ↔
    r.errors = [] ∧ ∀ tr ∈ r.targets, tr.status = .built := by
  simp [succeeded]

def addReflection (paths : List Path) (r : FileReport) : FileReport :=
  { r with reflection := r.reflection ++ paths }

def addTargets (ts : List TargetReport) (r : FileReport) : FileReport :=
  { r with targets := r.targets ++ ts }

def stoppedBy (r : FileReport) (e : Failure) : FileReport :=
  { r with errors := r.errors ++ [e.message] }

theorem not_succeeded_stoppedBy (r : FileReport) (e : Failure) :
    (r.stoppedBy e).succeeded = false := by
  simp [stoppedBy, succeeded]

theorem not_succeeded_addTargets {r : FileReport} (h : r.succeeded = false)
    (ts : List TargetReport) : (r.addTargets ts).succeeded = false := by
  rw [← Bool.not_eq_true, succeeded_iff] at h ⊢
  exact fun hs => h ⟨hs.1, fun tr htr => hs.2 tr (List.mem_append_left _ htr)⟩

end FileReport

namespace Builder
variable {b : Builder}

open Building

def tableFiles (b : Builder) (t : ResourceTable) : List (Path × List UInt8) :=
  [(b.reflectionDir.joinName s!"{t.name}.srt.json", Text.utf8 t.toJson.pretty),
    (b.reflectionDir.joinName s!"{t.name}.srt.h", Text.utf8 t.header)]

theorem reflectTable_eq (table : ResourceTable) : b.reflectTable table =
    (b.tableFiles table).forM (fun f => place f.1 f.2) >>= fun _ =>
      modify fun w =>
          { w with report := w.report.addReflection ((b.tableFiles table).map Prod.fst) } := by
  simp [reflectTable, tableFiles, FileReport.addReflection]

/-- A target of a build that has just been started is never given up. -/
theorem after_reportTarget {f : ShaderFile} {os : List Output} {target : Target} {t : FileTree}
    {r : FileReport} {as : List Path} :
    (b.reportTarget f os target).after ⟨.ofTree t, r, as⟩ =
      match (b.buildTarget f os target).after ⟨.ofTree t, r, []⟩ with
      | (.ok (), w) =>
        (.ok (), { w with report := w.report.addTargets [⟨target, .built, w.artifacts⟩] })
      | (.error e, w) =>
        (.ok (),
          { w with report := w.report.addTargets [⟨target, .failed e.message, w.artifacts⟩] }) := by
  rw [reportTarget, after_get_bind]
  simp only [BuildState.ofTree, List.lookup_nil]
  rw [after_bind]
  change after (tryCatch _ _ >>= _) ⟨_, r, []⟩ = _
  rw [after_bind, after_tryCatch, after_bind]
  rcases after (b.buildTarget f os target) ⟨⟨t, [], false, []⟩, r, []⟩ with ⟨e | u, w⟩
  · rfl
  · rfl

def rowOf (b : Builder) (canonical : Path) (f : ShaderFile) (fingerprint : String)
    (r : FileReport) : CacheRow :=
  { input := canonical, dependencies := f.source.dependencies, fingerprint
    arguments := b.arguments, outputs := r.artifacts }

/-- What is done before a build of an input is recorded. -/
def produce (b : Builder) (input : Path) : Building (ShaderFile × String) := do
  checkCancelled
  let f ← b.readFile input
  let fingerprint ← fingerprint f.source.dependencies
  modify fun w => { w with report := { w.report with
    errors := w.report.errors ++ f.tables.faults.map Failure.message } }
  f.tables.tables.forM b.reflectTable
  let os ← ExceptT.mk (pure f.outputs)
  b.config.targets.forM (b.reportTarget f os)
  return (f, fingerprint)

/-- Records a build of an input, if it has succeeded. -/
def conclude (b : Builder) (canonical : Path) (f : ShaderFile) (fingerprint : String) :
    Building Unit := do
  let report := (← get).report
  if report.succeeded then
    place (b.cache.rowPath canonical) (Text.utf8 (CacheRow.toJson
      { input := canonical, dependencies := f.source.dependencies, fingerprint
        arguments := b.arguments, outputs := report.artifacts }).pretty)

theorem rebuild_eq (b : Builder) (input canonical : Path) : b.rebuild input canonical =
    b.produce input >>= fun p => b.conclude canonical p.1 p.2 := by
  rw [rebuild, produce]
  simp only [bind_assoc, pure_bind]
  refine bind_congr fun _ => bind_congr fun f => bind_congr fun fp => bind_congr fun _ =>
    bind_congr fun _ => bind_congr fun os => bind_congr fun _ => ?_
  rw [conclude]
  refine bind_congr fun w => ?_
  by_cases hs : w.report.succeeded = true
  · simp only [hs, if_true]
    rw [place]
    refine bind_congr fun w' => ?_
    rw [BuildCache.record]
  · simp only [hs, Bool.false_eq_true, if_false]

section Parts
variable {t : FileTree} {r : FileReport} {as : List Path} {input : Path}

theorem after_checkCancelled :
    checkCancelled.after ⟨.ofTree t, r, as⟩ = (.ok (), ⟨.ofTree t, r, as⟩) := rfl

theorem after_readFile : (b.readFile input).after ⟨.ofTree t, r, as⟩ =
    (ShaderFile.load t b.config.includePaths input, ⟨.ofTree t, r, as⟩) := rfl

theorem after_fingerprint {paths : List Path} : (fingerprint paths).after ⟨.ofTree t, r, as⟩ =
    (Fingerprint.ofFiles t paths, ⟨.ofTree t, r, as⟩) := rfl

theorem after_addFaults (faults : List Failure) :
    (modify fun w => { w with report := { w.report with
      errors := w.report.errors ++ faults.map Failure.message } } : Building Unit).after
        ⟨.ofTree t, .start input, as⟩ =
      (.ok (), ⟨.ofTree t, ⟨input, false, faults.map Failure.message, [], []⟩, as⟩) := rfl

theorem after_buildInput : (b.buildInput input).after ⟨.ofTree t, r, as⟩ =
    match t.canonical input with
    | .error e => (.error (.pathIo input e), ⟨.ofTree t, r, as⟩)
    | .ok canonical =>
      if b.config.incremental && b.cache.isFresh t canonical b.arguments then
        (.ok (), ⟨.ofTree t, { r with cached := true }, as⟩)
      else (b.rebuild input canonical).after ⟨.ofTree t, r, as⟩ := by
  rw [buildInput, after_get_bind]
  simp only [BuildState.ofTree]
  cases t.canonical input with
  | error e => rfl
  | ok canonical =>
    simp only [after_get_bind]
    split <;> rfl

theorem buildFile_ofTree : b.buildFile (.ofTree t) input =
    match (b.buildInput input).after ⟨.ofTree t, .start input, []⟩ with
    | (.ok (), w) => (w.report, w.build)
    | (.error e, w) => (w.report.stoppedBy e, w.build) := rfl

end Parts
end Builder

/-- A build of an input that succeeded: where it was found, what it was read as, and what came of
it. -/
structure Build where
  input : Path
  canonical : Path
  file : ShaderFile
  fingerprint : String
  report : FileReport

namespace Build

def row (x : Build) (b : Builder) : CacheRow := b.rowOf x.canonical x.file x.fingerprint x.report

def sources (x : Build) : List Path := x.file.source.dependencies

end Build

end ShaderDialect
