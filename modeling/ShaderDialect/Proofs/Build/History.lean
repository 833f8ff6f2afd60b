import ShaderDialect.Proofs.Build.Clashes
import ShaderDialect.Proofs.Build.Tasks

/-! Histories of builds: edits and runs, moment by moment. A row in the cache stems from the last
build of its input that succeeded. -/
namespace ShaderDialect

open FileTree List Success

namespace Builder

open Building

/-- The same builder, which skips what is up to date or does not. -/
def withIncremental (b : Builder) (incremental : Bool) : Builder :=
  { b with config := { b.config with incremental } }

/-- Whether inputs may be skipped plays no part in building one that is not. -/
theorem task_withIncremental (b : Builder) (incremental : Bool) :
    (b.withIncremental incremental).task = b.task := by
  delta task reflectTask targetsTask
  rfl

section Outcomes
variable {b : Builder} {t : FileTree} {input canonical : Path}

/-- What building an input comes to, if inputs may be skipped or may not. -/
inductive Outcome (b : Builder) (incremental : Bool) (t : FileTree) (input : Path) :
    FileReport → FileTree → Prop
  /-- It is up to date. -/
  | hit {canonical : Path} {r : FileReport} : incremental = true → r.cached = true →
      r.input = input → t.canonical input = .ok canonical →
      b.cache.isFresh t canonical b.arguments = true → Outcome b incremental t input r t
  /-- Something is wrong with it, or it cannot be recorded; artifacts may have been put in place. -/
  | failed {r : FileReport} {fs : List (Path × List UInt8)} {t' : FileTree} : r.cached = false →
      r.succeeded = false → t.placeAll fs = .ok t' → (∀ p ∈ fs.map Prod.fst, p.IsArtifact) →
      Outcome b incremental t input r t'
  | built {x : Build} {t' : FileTree} : x.input = input → b.Constructs t x t' →
      Outcome b incremental t input x.report t'

theorem buildFile_of_isFresh (hcan : t.canonical input = .ok canonical)
    (hf : b.cache.isFresh t canonical b.arguments = true) :
    (b.withIncremental true).buildFile (.ofTree t) input =
      ({ FileReport.start input with cached := true }, .ofTree t) := by
  have hskip : ((b.withIncremental true).config.incremental &&
      (b.withIncremental true).cache.isFresh t canonical (b.withIncremental true).arguments) =
      true := by
    change (true && b.cache.isFresh t canonical b.arguments) = true
    rw [hf, Bool.and_self]
  rw [buildFile_ofTree, after_buildInput, hcan]
  simp only [hskip, if_true]

theorem buildFile_outcome (hc : b.config.compile = false) (incremental : Bool) (t : FileTree)
    (input : Path) : ∃ r t', (b.withIncremental incremental).buildFile (.ofTree t) input =
      (r, .ofTree t') ∧ b.Outcome incremental t input r t' := by
  by_cases hskip : ∃ canonical, t.canonical input = .ok canonical ∧
      (incremental && b.cache.isFresh t canonical b.arguments) = true
  · obtain ⟨canonical, hcan, hskip⟩ := hskip
    obtain ⟨rfl, hfresh⟩ := Bool.and_eq_true_iff.1 hskip
    exact ⟨_, t, buildFile_of_isFresh hcan hfresh, .hit rfl rfl rfl hcan hfresh⟩
  · have hfresh : ∀ canonical, t.canonical input = .ok canonical →
        (incremental && b.cache.isFresh t canonical b.arguments) = false := fun canonical hcan =>
      Bool.not_eq_true _ ▸ fun h => hskip ⟨canonical, hcan, h⟩
    obtain ⟨r, hreport, hbuild⟩ :=
      buildFile_of_not_isFresh (b := b.withIncremental incremental) hc hfresh
    rw [task_withIncremental] at hreport hbuild
    refine ⟨r, _, hbuild, ?_⟩
    rcases b.finish_task_cases t input with
      ⟨x, t', hinput, hx, hfinish⟩ | ⟨fs, r', t', hfs, hn, hcached, hs, hfinish⟩ <;>
      rw [hfinish] at hreport ⊢ <;> cases hreport
    · exact .built hinput hx
    · exact .failed hcached hs hfs hn

end Outcomes
end Builder

/-- What can come about in a history. -/
inductive Event
  /-- Files are changed by other means. -/
  | edit
  | build (input : Path) (report : FileReport)
  /-- The rows of inputs that share files are dropped. -/
  | reject

structure Moment where
  event : Event
  before : FileTree
  after : FileTree

namespace Builder
variable {r : FileReport} {x : Build} {bytes : List UInt8}

/-- An edit leaves the cache alone. -/
structure Edits (b : Builder) (t t' : FileTree) : Prop where
  cwd : t'.cwd = t.cwd
  cache : ∀ k, t.keyOf b.config.cachePath <+: k → t'.node? k = t.node? k

/-- The moments that a history is made of. -/
inductive Happens (b : Builder) : Moment → Prop
  | edit {t t' : FileTree} : b.Edits t t' → Happens b ⟨.edit, t, t'⟩
  | build (incremental : Bool) {t t' : FileTree} {input : Path} {r : FileReport} :
      (b.withIncremental incremental).buildFile (.ofTree t) input = (r, .ofTree t') →
      Happens b ⟨.build input r, t, t'⟩
  | reject (incremental : Bool) (t : FileTree) (reports : List FileReport) :
      Happens b ⟨.reject, t, ((b.withIncremental incremental).rejectShared t reports).2⟩

/-- At a moment, an input is built and not found up to date, and the build succeeds. -/
structure Completes (b : Builder) (m : Moment) (x : Build) : Prop where
  event : m.event = .build x.input x.report
  rebuilt : x.report.cached = false
  succeeded : x.report.succeeded = true
  canonical : m.before.canonical x.input = .ok x.canonical
  load : ShaderFile.load m.before b.config.includePaths x.input = .ok x.file
  fingerprint : Fingerprint.ofFiles m.before x.sources = .ok x.fingerprint

section Rejecting
variable (b : Builder) {t : FileTree}

/-- Rows are dropped, and nothing else changes. -/
theorem rejectShared_shrinks (t : FileTree) (reports : List FileReport) :
    (b.rejectShared t reports).2.cwd = t.cwd ∧
      ∀ k n, (b.rejectShared t reports).2.node? k = some n → t.node? k = some n := by
  have hloses := b.loses_foldl_forget t (b.rejectedInputs t reports)
  rw [rejectShared_eq]
  exact ⟨hloses.cwd, fun k n => hloses.node_of_node⟩

/-- What is still found up to date has not been touched. -/
theorem mem_of_mem_rejectShared {reports : List FileReport} (h : r ∈ (b.rejectShared t reports).1)
    (hr : r.cached = true) : r ∈ reports := by
  rw [rejectShared_eq] at h
  obtain ⟨⟨r', i⟩, hmem, h⟩ := mem_map.1 h
  dsimp only at h
  split at h
  · exact h ▸ fst_mem_of_mem_zipIdx hmem
  · subst h
    cases hr

end Rejecting

variable {canonical : Path}

section Steps
variable {b : Builder} {m : Moment}

theorem Happens.outcome {t t' : FileTree} {input : Path} (hc : b.config.compile = false)
    (h : b.Happens ⟨.build input r, t, t'⟩) :
    ∃ incremental, b.Outcome incremental t input r t' := by
  cases h with
  | build incremental h =>
    obtain ⟨r', t'', he, ho⟩ := buildFile_outcome hc incremental t input
    rw [h] at he
    cases he
    exact ⟨incremental, ho⟩

theorem Happens.cwd (hc : b.config.compile = false) (h : b.Happens m) :
    m.after.cwd = m.before.cwd := by
  obtain ⟨event, t, t'⟩ := m
  cases event with
  | edit =>
    cases h with
    | edit h => exact h.cwd
  | reject =>
    cases h with
    | reject incremental _ reports =>
      exact ((b.withIncremental incremental).rejectShared_shrinks t reports).1
  | build input r =>
    obtain ⟨incremental, ho⟩ := h.outcome hc
    cases ho with
    | hit => rfl
    | failed _ _ hfs => exact (grows_placeAll hfs).cwd
    | built _ hx =>
      obtain ⟨t₁, hall, hrecord⟩ := hx.recorded
      exact (place_puts hrecord).1.cwd.trans (grows_placeAll hall).cwd

theorem Happens.constructs (hc : b.config.compile = false) (h : b.Happens m)
    (hx : b.Completes m x) : b.Constructs m.before x m.after := by
  obtain ⟨event, t, t'⟩ := m
  obtain ⟨input, canonical, f, fp, r⟩ := x
  obtain ⟨rfl, hcached, hs, hcan, hload, hprint⟩ := hx
  obtain ⟨incremental, ho⟩ := h.outcome hc
  cases ho with
  | hit _ hcached' => cases hcached.symm.trans hcached'
  | failed _ hf => cases hs.symm.trans hf
  | @built y _ hinput hy =>
    obtain ⟨_, canonical', f', fp', _⟩ := y
    obtain rfl := hinput
    cases Except.ok.inj (hload.symm.trans hy.load)
    cases Except.ok.inj (hprint.symm.trans hy.fingerprint)
    cases Except.ok.inj (hcan.symm.trans hy.canonical)
    exact hy

theorem Completes.unique {y : Build} (hx : b.Completes m x) (hy : b.Completes m y) : x = y := by
  obtain ⟨input, canonical, f, fp, r⟩ := x
  obtain ⟨hevent, -, -, hcan, hload, hprint⟩ := hx
  obtain ⟨rfl, rfl⟩ := Event.build.inj (hevent.symm.trans hy.event)
  cases hcan.symm.trans hy.canonical
  cases hload.symm.trans hy.load
  cases hprint.symm.trans hy.fingerprint
  rfl

/-- A row that is in the cache after a moment was there before, or is that of a build. -/
theorem Happens.row (hc : b.config.compile = false) (h : b.Happens m) {x : Bool}
    (hn : m.after.node? (m.before.keyOf (b.cache.rowPath canonical)) = some (.file bytes x)) :
    (m.before.node? (m.before.keyOf (b.cache.rowPath canonical)) = some (.file bytes x) ∧
      ∀ y, b.Completes m y → y.canonical ≠ canonical) ∨
    ∃ y, b.Completes m y ∧ bytes = Text.utf8 (y.row b).toJson.pretty := by
  obtain ⟨event, t, t'⟩ := m
  simp only at hn ⊢
  cases event with
  | edit =>
    refine .inl ⟨?_, fun y hy => by cases hy.event⟩
    cases h with
    | edit h =>
      rw [BuildCache.keyOf_rowPath] at hn ⊢
      exact (h.cache _ (prefix_append _ _)).symm.trans hn
  | reject =>
    refine .inl ⟨?_, fun y hy => by cases hy.event⟩
    cases h with
    | reject incremental _ reports =>
      exact ((b.withIncremental incremental).rejectShared_shrinks t reports).2 _ _ hn
  | build input r =>
    have hrow : ∀ fs : List (Path × List UInt8), (∀ p ∈ fs.map Prod.fst, p.IsArtifact) →
        ∀ p ∈ fs.map Prod.fst, t.keyOf p ≠ t.keyOf (b.cache.rowPath canonical) :=
      fun fs hfs p hp => BuildCache.keyOf_ne_rowPath (hfs p hp) _ _ _
    have hevent : ∀ {y}, b.Completes ⟨.build input r, t, t'⟩ y → y.input = input ∧ y.report = r :=
      fun hy => by simpa [eq_comm] using hy.event
    obtain ⟨incremental, ho⟩ := h.outcome hc
    cases ho with
    | hit _ hcached =>
      refine .inl ⟨hn, fun y hy => ?_⟩
      simp [← (hevent hy).2, hy.rebuilt] at hcached
    | failed _ hf hfs ha =>
      refine .inl ⟨(file_iff_placeAll hfs (hrow _ ha)).1 hn, fun y hy => ?_⟩
      simp [← (hevent hy).2, hy.succeeded] at hf
    | @built x _ hinput hx =>
      obtain rfl := hinput
      obtain ⟨t₁, hall, hrecord⟩ := hx.recorded
      have hputs := (place_puts hrecord).1
      rw [keyOf_congr (grows_placeAll hall).cwd] at hputs
      by_cases hk : t.keyOf (b.cache.rowPath canonical) = t.keyOf (b.cache.rowPath x.canonical)
      · refine .inr ⟨x, ⟨rfl, hx.cached, hx.succeeded, hx.canonical, hx.load, hx.fingerprint⟩, ?_⟩
        have hfile := hputs.file
        rw [Build.row, rowOf, ← hk, hn] at hfile
        cases hfile
        rfl
      · refine .inl ⟨(file_iff_placeAll hall (hrow _ (b.mem_artifacts_generated x.file))).1
          ((hputs.file_iff hk).1 hn), fun y hy he => hk ?_⟩
        have hcan := hy.canonical
        rw [(hevent hy).1, hx.canonical, he] at hcan
        rw [Except.ok.inj hcan]

end Steps

/-- Moments that follow each other lead from a tree to a tree. -/
def Leads (b : Builder) : FileTree → List Moment → FileTree → Prop
  | t, [], t' => t = t'
  | t, m :: ms, t' => m.before = t ∧ b.Happens m ∧ Leads b m.after ms t'

/-- The last build of a file among some moments that succeeded. -/
structure LastBuild (b : Builder) (ms : List Moment) (canonical : Path) where
  earlier : List Moment
  moment : Moment
  since : List Moment
  build : Build
  moments : ms = earlier ++ moment :: since
  completes : b.Completes moment build
  last : ∀ m ∈ since, ∀ x, b.Completes m x → x.canonical ≠ canonical

section Leading
variable {b : Builder} {t t' : FileTree} {ms ms' : List Moment}

theorem leads_append : b.Leads t (ms ++ ms') t' ↔ ∃ t₁, b.Leads t ms t₁ ∧ b.Leads t₁ ms' t' := by
  induction ms generalizing t with
  | nil => simp [Leads]
  | cons m ms ih => simp [Leads, ih, and_assoc]

theorem Leads.happens (h : b.Leads t ms t') : ∀ m ∈ ms, b.Happens m := by
  induction ms generalizing t with
  | nil => simp
  | cons m ms ih =>
    obtain ⟨-, hm, h⟩ := h
    exact forall_mem_cons.2 ⟨hm, ih h⟩

theorem Leads.cwd (hc : b.config.compile = false) (h : b.Leads t ms t') :
    t'.cwd = t.cwd ∧ ∀ m ∈ ms, m.before.cwd = t.cwd := by
  induction ms generalizing t with
  | nil => exact ⟨congrArg cwd (Eq.symm h), by simp⟩
  | cons m ms ih =>
    obtain ⟨rfl, hm, h⟩ := h
    obtain ⟨hcwd, hall⟩ := ih h
    rw [hm.cwd hc] at hcwd hall
    exact ⟨hcwd, forall_mem_cons.2 ⟨rfl, hall⟩⟩

/-- A row that is in the cache has been there from the start, or it is that of the last build of its
file that succeeded. -/
theorem Leads.row (hc : b.config.compile = false) (h : b.Leads t ms t') {x : Bool}
    (hn : t'.node? (t.keyOf (b.cache.rowPath canonical)) = some (.file bytes x)) :
    (t.node? (t.keyOf (b.cache.rowPath canonical)) = some (.file bytes x) ∧
      ∀ m ∈ ms, ∀ y, b.Completes m y → y.canonical ≠ canonical) ∨
    ∃ l : b.LastBuild ms canonical, bytes = Text.utf8 (l.build.row b).toJson.pretty := by
  induction ms generalizing t with
  | nil =>
    obtain rfl := h
    exact .inl ⟨hn, by simp⟩
  | cons m ms ih =>
    obtain ⟨rfl, hm, h⟩ := h
    rw [← keyOf_congr (hm.cwd hc)] at hn
    rcases ih h hn with ⟨hrow, hnone⟩ | ⟨l, hbytes⟩
    · rw [keyOf_congr (hm.cwd hc)] at hrow
      rcases hm.row hc hrow with ⟨hrow, hno⟩ | ⟨y, hy, hbytes⟩
      · exact .inl ⟨hrow, forall_mem_cons.2 ⟨hno, hnone⟩⟩
      · exact .inr ⟨⟨[], m, ms, y, rfl, hy, hnone⟩, hbytes⟩
    · refine .inr ⟨{ l with earlier := m :: l.earlier, moments := ?_ }, hbytes⟩
      rw [cons_append, ← l.moments]

end Leading

def buildMoments (b : Builder) (incremental : Bool) : FileTree → List Path → List Moment
  | _, [] => []
  | t, input :: inputs =>
    let (r, s) := (b.withIncremental incremental).buildFile (.ofTree t) input
    ⟨.build input r, t, s.tree⟩ :: buildMoments b incremental s.tree inputs

/-- A run on a tree: what it tells and the tree that it leaves. -/
def runOn (b : Builder) (incremental : Bool) (t : FileTree) (inputs : List Path) :
    BuildReport × FileTree :=
  let (report, s) := (b.withIncremental incremental).run (.ofTree t) inputs
  (report, s.tree)

def moments (b : Builder) (incremental : Bool) (t : FileTree) (inputs : List Path) : List Moment :=
  b.buildMoments incremental t inputs ++
    [⟨.reject, ((b.withIncremental incremental).buildFiles (.ofTree t) inputs).2.tree,
      (b.runOn incremental t inputs).2⟩]

/-- What can become of a tree by edits and runs. -/
inductive History (b : Builder) (t₀ : FileTree) : List Moment → FileTree → Prop
  | start : History b t₀ [] t₀
  | edit {ms : List Moment} {t t' : FileTree} : History b t₀ ms t → b.Edits t t' →
      History b t₀ (ms ++ [⟨.edit, t, t'⟩]) t'
  | run {ms : List Moment} {t : FileTree} (incremental : Bool) (inputs : List Path) :
      History b t₀ ms t →
      History b t₀ (ms ++ b.moments incremental t inputs) (b.runOn incremental t inputs).2

section Running
variable {b : Builder}

theorem buildFiles_moments (hc : b.config.compile = false) (incremental : Bool) (t : FileTree)
    (inputs : List Path) :
    ∃ reports t', (b.withIncremental incremental).buildFiles (.ofTree t) inputs =
        (reports, .ofTree t') ∧
      b.Leads t (b.buildMoments incremental t inputs) t' ∧
      ∀ r ∈ reports, ∃ m ∈ b.buildMoments incremental t inputs, ∃ input,
        m.event = .build input r := by
  induction inputs generalizing t with
  | nil => exact ⟨[], t, rfl, rfl, by simp⟩
  | cons input inputs ih =>
    obtain ⟨r, t₁, hr, -⟩ := buildFile_outcome hc incremental t input
    obtain ⟨reports, t', hrs, hleads, hmem⟩ := ih t₁
    have hms : b.buildMoments incremental t (input :: inputs) =
        ⟨.build input r, t, t₁⟩ :: b.buildMoments incremental t₁ inputs := by
      rw [buildMoments, hr]
      rfl
    rw [hms]
    refine ⟨r :: reports, t', ?_, ⟨rfl, .build incremental hr, hleads⟩, ?_⟩
    · rw [buildFiles, hr]
      simp only [hrs]
    · refine forall_mem_cons.2 ⟨⟨_, mem_cons_self, input, rfl⟩, fun r' hr' => ?_⟩
      obtain ⟨m, hm, he⟩ := hmem r' hr'
      exact ⟨m, mem_cons_of_mem _ hm, he⟩

theorem leads_moments (hc : b.config.compile = false) (incremental : Bool) (t : FileTree)
    (inputs : List Path) :
    b.Leads t (b.moments incremental t inputs) (b.runOn incremental t inputs).2 := by
  obtain ⟨reports, t', hrs, hleads, -⟩ := buildFiles_moments hc incremental t inputs
  refine leads_append.2 ⟨t', hleads, ?_, ?_, rfl⟩
  · rw [hrs]
    rfl
  · rw [runOn, run, hrs]
    exact .reject incremental t' _

variable {t : FileTree}

theorem History.leads (hc : b.config.compile = false) {t₀ : FileTree} {ms : List Moment}
    (h : b.History t₀ ms t) : b.Leads t₀ ms t := by
  induction h with
  | start => rfl
  | edit _ he ih => exact leads_append.2 ⟨_, ih, rfl, .edit he, rfl⟩
  | run incremental inputs _ ih =>
    exact leads_append.2 ⟨_, ih, leads_moments hc incremental _ inputs⟩

/-- An input that is reported as up to date was found up to date at a moment of the run. -/
theorem exists_hit (hc : b.config.compile = false) {incremental : Bool} {inputs : List Path}
    (hr : r ∈ (b.runOn incremental t inputs).1.files) (hcached : r.cached = true) :
    ∃ earlier m rest canonical, b.moments incremental t inputs = earlier ++ m :: rest ∧
      m.event = .build r.input r ∧ m.before.canonical r.input = .ok canonical ∧
      b.cache.isFresh m.before canonical b.arguments = true := by
  obtain ⟨reports, t', hrs, hleads, hmem⟩ := buildFiles_moments hc incremental t inputs
  rw [runOn, run, hrs] at hr
  have hin : r ∈ reports := (mergeSort_perm _ _).subset
    ((b.withIncremental incremental).mem_of_mem_rejectShared hr hcached)
  obtain ⟨⟨_, before, after⟩, hm, input, rfl⟩ := hmem r hin
  obtain ⟨earlier, rest, he⟩ := append_of_mem hm
  obtain ⟨skip, ho⟩ := (hleads.happens _ hm).outcome hc
  cases ho with
  | failed hno => cases hno.symm.trans hcached
  | built _ hx => cases hx.cached.symm.trans hcached
  | hit _ _ hinput hcan hf =>
    subst hinput
    obtain ⟨last, hms⟩ : ∃ last, b.moments incremental t inputs =
        b.buildMoments incremental t inputs ++ [last] := ⟨_, rfl⟩
    rw [he, append_assoc, cons_append] at hms
    exact ⟨earlier, _, rest ++ [last], _, hms, rfl, hcan, hf⟩

end Running
end Builder
end ShaderDialect
