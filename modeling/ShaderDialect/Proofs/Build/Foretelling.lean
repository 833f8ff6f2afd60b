import ShaderDialect.Proofs.Build.Crew
import ShaderDialect.Proofs.FileTree.Looking

/-! The work on an input comes to one report, whatever other files are put into the tree meanwhile,
if its sources stay as they are and no file is put where a directory has to be. -/
namespace ShaderDialect
open List

namespace FileTree
variable {t u u' : FileTree} {ways places : Set Key} {p : Path}

theorem Proper.start (h : Proper t) (p : Path) : t.node? (t.start p) = some .directory := by
  unfold FileTree.start
  split
  · exact node?_nil t
  · exact h.cwd

theorem Straight.joinName (h : t.Straight (t.visited p)) (ht : Rooted t) {s : String}
    (hslash : '/' ∉ s.toList) (hs : stepOf s = .name s) :
    t.Straight (t.visited (p.joinName s)) := by
  rw [t.visited_joinName p hslash]
  refine pairwise_append.2 ⟨h.sublist (t.way_joinName p hslash).sublist,
    pairwise_singleton _ _, fun j hj k hk hnone => ?_⟩
  obtain rfl := mem_singleton.1 hk
  rw [t.keyOf_joinName p hslash hs]
  have hend : t.node? (t.keyOf p) = none :=
    h.end_eq_none ((t.way_joinName p hslash).subset hj) hnone
  by_contra hsome
  cases hend.symm.trans (ht _ s (Option.isSome_iff_ne_none.2 hsome))

theorem Filled.prepares (h : Filled ways places t u) (hp : u.Prepares p u')
    (hways : ∀ k ∈ t.way p, k ∈ ways) : Filled ways places t u' := by
  refine ⟨hp.cwd.trans h.cwd, hp.rooted h.rooted, fun k => ?_⟩
  rcases hp.node k with he | ⟨hk, hnone, hdir⟩
  · rw [he]
    exact h.node k
  · rw [way_congr h.cwd] at hk
    refine .inr (.inr ⟨hways k hk, ?_, hdir⟩)
    rcases h.node k with he | ⟨-, -, content, he⟩ | ⟨-, hnone', -⟩
    · exact he.symm.trans hnone
    · cases he.symm.trans hnone
    · exact hnone'

end FileTree

open FileTree

/-- A task comes to a report, whatever other files have been put into the tree meanwhile. -/
def Task.Comes (ways places : Set Key) (t : FileTree) : Task → FileReport → Prop
  | built x, r => x.report = r
  | failed report, r => report = r
  | look next, r => ∀ u, Filled ways places t u → (next u).Comes ways places t r
  | place p content next, r => Allotted ways places t p ∧
    (next ((t.place p content).map fun _ => ())).Comes ways places t r

namespace Task
variable {content : List UInt8} {ways places : Set Key} {t u u' : FileTree} {r : FileReport}
  {task : Task}

section Steps
variable (hapart : ∀ k ∈ ways, k ∉ places) (ht : Rooted t)
include hapart ht

theorem Comes.place {p : Path} {next : Except Failure Unit → Task}
    (h : (Task.place p content next).Comes ways places t r) (hu : Filled ways places t u) :
    (∃ e, u.place p content = .error e ∧ (next (.error e)).Comes ways places t r) ∨
      ∃ u', u.place p content = .ok u' ∧ (next (.ok ())).Comes ways places t r ∧
        Filled ways places t u' := by
  obtain ⟨hp, hnext⟩ := h
  rcases hu.place hapart ht hp content content with ⟨e, he, he'⟩ | ⟨t', u', hok, hok', hfilled⟩
  · rw [he] at hnext
    exact .inl ⟨e, he', hnext⟩
  · rw [hok] at hnext
    exact .inr ⟨u', hok', hnext, hfilled⟩

theorem Comes.step {b : Builder} {job : Job} (h : task.Comes ways places t r)
    (hu : Filled ways places t u) (hstep : b.JobStep u (.working task) u' job) :
    ∃ task', job = .working task' ∧ task'.Comes ways places t r ∧ Filled ways places t u' := by
  cases hstep with
  | look => exact ⟨_, rfl, h u hu, hu⟩
  | prepare hp => exact ⟨_, rfl, h, hu.prepares hp h.1.way⟩
  | place hp =>
    rcases h.place hapart ht hu with ⟨e, he, -⟩ | ⟨u', hok, hnext, hfilled⟩
    · cases he.symm.trans hp
    · cases Except.ok.inj (hok.symm.trans hp)
      exact ⟨_, rfl, hnext, hfilled⟩
  | refuse hp =>
    rcases h.place hapart ht hu with ⟨e, he, hnext⟩ | ⟨u', hok, -⟩
    · cases Except.error.inj (he.symm.trans hp)
      exact ⟨_, rfl, hnext, hu⟩
    · cases hok.symm.trans hp

theorem Comes.finish (h : task.Comes ways places t r) (hu : Filled ways places t u) :
    (task.finish u).1.report? = some r := by
  induction task generalizing u with
  | built x => exact congrArg some h
  | failed report => exact congrArg some h
  | look next ih => exact ih u (h u hu) hu
  | place p content next ih =>
    rw [Task.finish]
    rcases h.place hapart ht hu with ⟨e, he, hnext⟩ | ⟨u', hok, hnext, hfilled⟩
    · rw [attempt_of_error he]
      exact ih _ hnext hu
    · rw [attempt_of_ok hok]
      exact ih _ hnext hfilled

end Steps

theorem Comes.report? (h : task.Comes ways places t r) {r' : FileReport}
    (hr : task.report? = some r') : r' = r := by
  cases task with
  | built x => exact (Option.some.inj hr).symm.trans h
  | failed report => exact (Option.some.inj hr).symm.trans h
  | look next => cases hr
  | place p content next => cases hr

end Task

/-- A report is on an input that has not been skipped. -/
def FileReport.IsOn (r : FileReport) (input : Path) : Prop := r.input = input ∧ r.cached = false

/-- A task comes to one report, which is on its input. -/
def Task.Foretold (ways places : Set Key) (t : FileTree) (input : Path) (task : Task) : Prop :=
  ∃ r, task.Comes ways places t r ∧ r.IsOn input

section Foretelling
variable {content : List UInt8} {ways places : Set Key} {t : FileTree} {input : Path}
  {r : FileReport}

namespace Task

theorem foretold_stoppedBy (hr : r.IsOn input) (e : Failure) :
    (failed (r.stoppedBy e)).Foretold ways places t input := ⟨_, rfl, hr⟩

theorem foretold_look {next : FileTree → Task}
    (hsame : ∀ u, Filled ways places t u → next u = next t)
    (hnext : (next t).Foretold ways places t input) : (look next).Foretold ways places t input := by
  obtain ⟨r, hr, hon⟩ := hnext
  refine ⟨r, fun u hu => ?_, hon⟩
  rw [hsame u hu]
  exact hr

variable {next : Except Failure Unit → Task}

theorem foretold_place {p : Path} (hp : Allotted ways places t p)
    (hnext : ∀ result, (next result).Foretold ways places t input) :
    (place p content next).Foretold ways places t input := by
  obtain ⟨r, hr, hon⟩ := hnext ((t.place p content).map fun _ => ())
  exact ⟨r, ⟨hp, hr⟩, hon⟩

theorem foretold_write {fs : Files} (hfs : ∀ f ∈ fs, Allotted ways places t f.1)
    (hnext : ∀ result, (next result).Foretold ways places t input) :
    (write fs next).Foretold ways places t input := by
  induction fs with
  | nil => exact hnext (.ok ())
  | cons f fs ih =>
    rw [forall_mem_cons] at hfs
    refine foretold_place hfs.1 fun result => ?_
    cases result with
    | error e => exact hnext (.error e)
    | ok _ => exact ih hfs.2

theorem foretold_writeParts {parts : List Files} {listed : List Path}
    {next : Except Failure Unit → List Path → Task}
    (hparts : ∀ f ∈ parts.flatten, Allotted ways places t f.1)
    (hnext : ∀ result listed, (next result listed).Foretold ways places t input) :
    (writeParts parts listed next).Foretold ways places t input := by
  induction parts generalizing listed with
  | nil => exact hnext (.ok ()) listed
  | cons part parts ih =>
    rw [flatten_cons, forall_mem_append] at hparts
    refine foretold_write hparts.1 fun result => ?_
    cases result with
    | error e => exact hnext (.error e) listed
    | ok _ => exact ih hparts.2

end Task

namespace Builder
variable {b : Builder} {f : ShaderFile} {next : FileReport → Task}

theorem foretold_reflectTask {tables : List ResourceTable}
    (htables : ∀ file ∈ tables.flatMap b.tableFiles, Allotted ways places t file.1)
    (hnext : ∀ r, r.IsOn input → (next r).Foretold ways places t input) (hr : r.IsOn input) :
    (b.reflectTask tables r next).Foretold ways places t input := by
  induction tables generalizing r with
  | nil => exact hnext r hr
  | cons table tables ih =>
    rw [flatMap_cons, forall_mem_append] at htables
    refine Task.foretold_write htables.1 fun result => ?_
    cases result with
    | error e => exact Task.foretold_stoppedBy hr e
    | ok _ => exact ih htables.2 hr

theorem foretold_targetsTask {os : List Output} {targets : List Target}
    (htargets : ∀ file ∈ targets.flatMap fun target => (b.planTarget f target os).files,
      Allotted ways places t file.1)
    (hnext : ∀ r, r.IsOn input → (next r).Foretold ways places t input) (hr : r.IsOn input) :
    (b.targetsTask f os targets r next).Foretold ways places t input := by
  induction targets generalizing r with
  | nil => exact hnext r hr
  | cons target targets ih =>
    rw [flatMap_cons, forall_mem_append] at htargets
    exact Task.foretold_writeParts htargets.1 fun result listed => ih htargets.2 hr

theorem foretold_recordTask (x : Build)
    (hrow : Allotted ways places t (b.cache.rowPath x.canonical)) (hx : x.report.IsOn input) :
    (b.recordTask x).Foretold ways places t input := by
  unfold recordTask
  split
  · refine Task.foretold_place hrow fun result => ?_
    cases result with
    | error e => exact Task.foretold_stoppedBy hx e
    | ok _ => exact ⟨x.report, rfl, hx⟩
  · exact ⟨x.report, rfl, hx⟩

/-- The task that is left for a file comes to one report, if its sources stay as they are and its
files keep out of the way. -/
theorem foretold_fileTask {canonical : Path}
    (hsources : ∀ u, Filled ways places t u → ∀ p ∈ f.source.dependencies, u.read p = t.read p)
    (hfiles : ∀ file ∈ b.generated f ++ [(b.cache.rowPath canonical, [])],
      Allotted ways places t file.1) :
    (b.fileTask input canonical (.ok f)).Foretold ways places t input := by
  rw [forall_mem_append, forall_mem_singleton, generated, forall_mem_append] at hfiles
  obtain ⟨⟨htables, htargets⟩, hrow⟩ := hfiles
  dsimp only at hrow
  refine Task.foretold_look (fun u hu => ?_) ?_
  · rw [Fingerprint.ofFiles_congr (hsources u hu)]
  cases Fingerprint.ofFiles t f.source.dependencies with
  | error e => exact Task.foretold_stoppedBy ⟨rfl, rfl⟩ e
  | ok fingerprint =>
    refine foretold_reflectTask htables (fun r hr => ?_) ⟨rfl, rfl⟩
    cases hos : f.outputs with
    | error e => exact Task.foretold_stoppedBy hr e
    | ok os =>
      rw [targeted, hos] at htargets
      exact foretold_targetsTask htargets
        (fun r hr => foretold_recordTask ⟨input, canonical, f, fingerprint, r⟩ hrow hr) hr

end Builder
end Foretelling
end ShaderDialect
