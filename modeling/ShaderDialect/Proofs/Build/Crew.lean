import ShaderDialect.Proofs.Build.Interleaving
import ShaderDialect.Proofs.FileTree.Ways
import ShaderDialect.Proofs.Source.Stability

/-! Workers that take inputs from a queue and build them side by side, down to the single steps of
reading a source, making directories and putting files in place. Building one input after the other
is one of their schedules, for any number of workers. -/
namespace ShaderDialect

open Relation Source

/-- Directories on the way of a path have been made, where nothing was. -/
structure FileTree.Prepares (t : FileTree) (p : Path) (t' : FileTree) : Prop where
  cwd : t'.cwd = t.cwd
  rooted : t.Rooted → t'.Rooted
  node : ∀ k, t'.node? k = t.node? k ∨
    (k ∈ t.way p ∧ t.node? k = none ∧ t'.node? k = some .directory)

inductive Job
  /-- An input has been taken from the queue. -/
  | taken (input : Path)
  /-- Its canonical path is known. -/
  | located (input canonical : Path)
  /-- Its source is being read. -/
  | reading (input canonical : Path) (r : Reading)
  | working (task : Task)

/-- What is told of an input when the work on it is done. -/
def Job.report? : Job → Option FileReport
  | working task => task.report?
  | taken _ | located _ _ | reading _ _ _ => none

/-- Workers, what they share, and what they have told. -/
structure Crew where
  tree : FileTree
  queue : List Path
  jobs : List Job
  reports : List FileReport

namespace Builder
variable (b : Builder)

def fileTask (input canonical : Path) : Except Failure ShaderFile → Task
  | .error e => .failed ((FileReport.start input).stoppedBy e)
  | .ok f => .look fun t =>
    match Fingerprint.ofFiles t f.source.dependencies with
    | .error e => .failed ((FileReport.start input).stoppedBy e)
    | .ok fingerprint =>
      b.reflectTask f.tables.tables ⟨input, false, f.tables.faults.map Failure.message, [], []⟩
        fun r =>
        match f.outputs with
        | .error e => .failed (r.stoppedBy e)
        | .ok os => b.targetsTask f os b.config.targets r fun r =>
          b.recordTask ⟨input, canonical, f, fingerprint, r⟩

/-- The file whose source has been read, if reading has not failed. -/
def fileOf (input : Path) (result : Except Failure Reading) : Except Failure ShaderFile :=
  result >>= fun r => ShaderFile.ofSource (r.source input) (input.fileStem?.getD "shader")

/-- A worker takes a step. The directories for a file may be made one by one, before it is put in
place or refused. -/
inductive JobStep : FileTree → Job → FileTree → Job → Prop
  | locate {t : FileTree} {input canonical : Path} : t.canonical input = .ok canonical →
      JobStep t (.taken input) t (.located input canonical)
  | lose {t : FileTree} {input : Path} {e : IoFault} : t.canonical input = .error e →
      JobStep t (.taken input) t
        (.working (.failed ((FileReport.start input).stoppedBy (.pathIo input e))))
  | start {t : FileTree} {input canonical : Path} {r : Reading} : Reading.start t input = .ok r →
      JobStep t (.located input canonical) t (.reading input canonical r)
  | balk {t : FileTree} {input canonical : Path} {e : Failure} : Reading.start t input = .error e →
      JobStep t (.located input canonical) t (.working (b.fileTask input canonical (.error e)))
  | read {t : FileTree} {input canonical : Path} {r r' : Reading} :
      r.Next t b.config.includePaths r' →
      JobStep t (.reading input canonical r) t (.reading input canonical r')
  | stop {t : FileTree} {input canonical : Path} {r : Reading} {result : Except Failure Reading} :
      r.Stops t b.config.includePaths result →
      JobStep t (.reading input canonical r) t
        (.working (b.fileTask input canonical (fileOf input result)))
  | look {t : FileTree} {next : FileTree → Task} :
      JobStep t (.working (.look next)) t (.working (next t))
  | prepare {t t' : FileTree} {p : Path} {content : List UInt8}
      {next : Except Failure Unit → Task} : t.Prepares p t' →
      JobStep t (.working (.place p content next)) t' (.working (.place p content next))
  | place {t t' : FileTree} {p : Path} {content : List UInt8} {next : Except Failure Unit → Task} :
      t.place p content = .ok t' →
      JobStep t (.working (.place p content next)) t' (.working (next (.ok ())))
  | refuse {t : FileTree} {p : Path} {content : List UInt8} {next : Except Failure Unit → Task}
      {e : Failure} : t.place p content = .error e →
      JobStep t (.working (.place p content next)) t (.working (next (.error e)))

/-- A worker takes an input, takes a step, or tells what has come of its input. -/
inductive CrewStep (workers : Nat) : Crew → Crew → Prop
  | take {t : FileTree} {input : Path} {queue : List Path} {jobs : List Job}
      {reports : List FileReport} : jobs.length < workers →
      CrewStep workers ⟨t, input :: queue, jobs, reports⟩
        ⟨t, queue, jobs ++ [.taken input], reports⟩
  | work {t t' : FileTree} {queue : List Path} {job job' : Job} {reports : List FileReport}
      (before after : List Job) : b.JobStep t job t' job' →
      CrewStep workers ⟨t, queue, before ++ job :: after, reports⟩
        ⟨t', queue, before ++ job' :: after, reports⟩
  | tell {t : FileTree} {queue : List Path} {job : Job} {reports : List FileReport} {r : FileReport}
      (before after : List Job) : job.report? = some r →
      CrewStep workers ⟨t, queue, before ++ job :: after, reports⟩
        ⟨t, queue, before ++ after, reports ++ [r]⟩

/-- A crew that started from a tree and a queue of inputs has taken all of them and told of them. -/
structure WorksOff (workers : Nat) (t : FileTree) (inputs : List Path) (crew : Crew) : Prop where
  reaches : ReflTransGen (b.CrewStep workers) ⟨t, inputs, [], []⟩ crew
  queue : crew.queue = []
  jobs : crew.jobs = []

variable {b}

theorem task_eq (input : Path) : b.task input = .look fun t =>
    match t.canonical input with
    | .error e => .failed ((FileReport.start input).stoppedBy (.pathIo input e))
    | .ok canonical => .look fun t =>
      b.fileTask input canonical (ShaderFile.load t b.config.includePaths input) := by
  unfold task fileTask
  rfl

theorem fileOf_eq_load {t : FileTree} {input : Path} {result : Except Failure Reading}
    (h : Reading.Ends t b.config.includePaths input result) :
    fileOf input result = ShaderFile.load t b.config.includePaths input := by
  rw [ShaderFile.load]
  cases result with
  | error e =>
    rw [h.load_eq_error]
    rfl
  | ok r =>
    rw [h.load_eq_ok]
    rfl

section Alone
variable {t t' : FileTree} {queue inputs : List Path} {job job' : Job} {reports : List FileReport}
  {workers : Nat} {input canonical : Path}

/-- One worker takes steps while the others rest. -/
def JobLeads (b : Builder) : FileTree × Job → FileTree × Job → Prop :=
  ReflTransGen fun x y => b.JobStep x.1 x.2 y.1 y.2

theorem leads_reading {r r' : Reading} (h : Reading.Leads t b.config.includePaths r r') :
    b.JobLeads (t, .reading input canonical r) (t, .reading input canonical r') := by
  induction h with
  | refl => exact .refl
  | tail _ hn ih => exact ih.tail (.read hn)

/-- What is left to do can be done at one go. -/
theorem leads_finish (task : Task) (t : FileTree) :
    b.JobLeads (t, .working task) ((task.finish t).2, .working (task.finish t).1) := by
  induction task generalizing t with
  | built x => exact .refl
  | failed report => exact .refl
  | look next ih => exact .head .look (ih t t)
  | place p content next ih =>
    rw [Task.finish]
    cases hp : t.place p content with
    | error e =>
      rw [FileTree.attempt_of_error hp]
      exact .head (.refuse hp) (ih (.error e) t)
    | ok t' =>
      rw [FileTree.attempt_of_ok hp]
      exact .head (.place hp) (ih (.ok ()) t')

/-- Reading a source to its end gives the file that is loaded. -/
theorem leads_load (t : FileTree) (input canonical : Path) :
    b.JobLeads (t, .located input canonical) (t, .working
      (b.fileTask input canonical (ShaderFile.load t b.config.includePaths input))) := by
  obtain ⟨result, hends⟩ : ∃ result, Reading.Ends t b.config.includePaths input result := by
    rcases Reading.load_ends t b.config.includePaths input with ⟨e, -, h⟩ | ⟨-, r, -, -, h, -⟩
    · exact ⟨_, h⟩
    · exact ⟨_, h⟩
  rw [← fileOf_eq_load hends]
  rw [Reading.Ends] at hends
  cases hstart : Reading.start t input with
  | error e =>
    simp only [hstart] at hends
    subst hends
    exact .single (.balk hstart)
  | ok r₀ =>
    simp only [hstart] at hends
    obtain ⟨r, hleads, hstops⟩ := hends
    exact (ReflTransGen.single (.start hstart)).trans ((leads_reading hleads).tail (.stop hstops))

theorem leads_task (t : FileTree) (input : Path) : b.JobLeads (t, .taken input)
    (((b.task input).finish t).2, .working ((b.task input).finish t).1) := by
  rw [task_eq]
  simp only [Task.finish]
  cases hc : t.canonical input with
  | error e => exact .single (.lose hc)
  | ok canonical =>
    exact .head (.locate hc) ((leads_load t input canonical).trans (leads_finish _ t))

theorem reaches_of_leads (before after : List Job) {x y : FileTree × Job} (h : b.JobLeads x y) :
    ReflTransGen (b.CrewStep workers) ⟨x.1, queue, before ++ x.2 :: after, reports⟩
      ⟨y.1, queue, before ++ y.2 :: after, reports⟩ := by
  induction h with
  | refl => exact .refl
  | tail _ hstep ih => exact ih.tail (.work before after hstep)

/-- Workers may take turns, each building its input at one go. -/
theorem reaches_buildFiles (hc : b.config.compile = false) (hi : b.config.incremental = false)
    (hw : 0 < workers) (t : FileTree) (inputs : List Path) (reports : List FileReport) :
    ∃ told t', b.buildFiles (.ofTree t) inputs = (told, .ofTree t') ∧
      ReflTransGen (b.CrewStep workers) ⟨t, inputs, [], reports⟩ ⟨t', [], [], reports ++ told⟩ := by
  induction inputs generalizing t reports with
  | nil => exact ⟨[], t, rfl, by simpa using .refl⟩
  | cons input inputs ih =>
    obtain ⟨r, hr, hfile⟩ := buildFile_eq hc hi t input
    obtain ⟨told, t', hbuild, hrest⟩ := ih ((b.task input).finish t).2 (reports ++ [r])
    refine ⟨r :: told, t', by simp only [buildFiles, hfile, hbuild], ?_⟩
    refine .head (.take hw) ((reaches_of_leads [] [] (leads_task t input)).trans ?_)
    refine .head (.tell [] [] hr) ?_
    simpa using hrest

theorem run_of_buildFiles (h : b.buildFiles (.ofTree t) inputs = (reports, .ofTree t')) :
    b.run (.ofTree t) inputs = ((b.settle t' reports).1, .ofTree (b.settle t' reports).2) := by
  rw [run, h]
  rfl

/-- Building inputs one after the other is a schedule of any crew that has workers. -/
theorem exists_worksOff_run (hc : b.config.compile = false) (hi : b.config.incremental = false)
    (hw : 0 < workers) (t : FileTree) (inputs : List Path) :
    ∃ crew, b.WorksOff workers t inputs crew ∧ b.run (.ofTree t) inputs =
      ((b.settle crew.tree crew.reports).1, .ofTree (b.settle crew.tree crew.reports).2) := by
  obtain ⟨told, t', hbuild, hreaches⟩ := reaches_buildFiles hc hi hw t inputs []
  exact ⟨_, ⟨hreaches, rfl, rfl⟩, run_of_buildFiles hbuild⟩

end Alone
end Builder
end ShaderDialect
