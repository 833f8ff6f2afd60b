import Mathlib.Logic.Relation
import ShaderDialect.Proofs.Build.Clashes
import ShaderDialect.Proofs.Build.Tasks

/-! Inputs that are built side by side. Whatever the order in which the workers take their steps,
where several of them put files in one place it holds what one of them put there last; so each finds
what was generated for it if and only if they agree on the places they share. -/
namespace ShaderDialect
open FileTree List

namespace FileTree

def lastAt (t : FileTree) (k : Key) (fs : Files) : Option (List UInt8) :=
  ((fs.filter fun f => t.keyOf f.1 = k).getLast?).map Prod.snd

/-- Where files of both are put, those put last have the same content. -/
def Agree (t : FileTree) (fs gs : Files) : Prop :=
  ∀ k x y, t.lastAt k fs = some x → t.lastAt k gs = some y → x = y

section Last
variable {t t' : FileTree} {k : Key} {fs gs : Files}

theorem lastAt_congr (h : t'.cwd = t.cwd) (k : Key) (fs : Files) :
    t'.lastAt k fs = t.lastAt k fs := by
  simp only [lastAt, keyOf_congr h]

theorem lastAt_append : t.lastAt k (fs ++ gs) = (t.lastAt k gs).or (t.lastAt k fs) := by
  simp [lastAt, getLast?_append, Option.map_or]

theorem lastAt_eq_none : t.lastAt k fs = none ↔ ∀ f ∈ fs, t.keyOf f.1 ≠ k := by
  simp [lastAt]

variable {p : Path}

theorem lastAt_of_eq (h : t.keyOf p = k) (content : List UInt8) :
    t.lastAt k (fs ++ [(p, content)]) = some content := by
  have hlast : t.lastAt k [(p, content)] = some content := by simp [lastAt, h]
  rw [lastAt_append, hlast, Option.some_or]

theorem lastAt_of_ne (h : t.keyOf p ≠ k) (content : List UInt8) :
    t.lastAt k (fs ++ [(p, content)]) = t.lastAt k fs := by
  have hlast : t.lastAt k [(p, content)] = none := lastAt_eq_none.2 (by simpa using h)
  rw [lastAt_append, hlast, Option.none_or]

theorem exists_lastAt {f : Path × List UInt8} (hf : f ∈ fs) :
    ∃ content, t.lastAt (t.keyOf f.1) fs = some content := by
  rw [← Option.ne_none_iff_exists']
  exact fun hn => lastAt_eq_none.1 hn f hf rfl

theorem exists_mem_of_lastAt {content : List UInt8} (h : t.lastAt k fs = some content) :
    ∃ f ∈ fs, t.keyOf f.1 = k := by
  by_contra hn
  push Not at hn
  cases h.symm.trans (lastAt_eq_none.2 hn)

theorem agree_congr (h : t'.cwd = t.cwd) : t'.Agree fs gs ↔ t.Agree fs gs := by
  simp only [Agree, lastAt_congr h]

end Last

/-- A tree holds what has been put in place since another, and where several have put files, what
one of them has put there last. -/
structure Holds (t₀ t : FileTree) (logs : List Files) : Prop where
  cwd : t.cwd = t₀.cwd
  resolve : ∀ log ∈ logs, ∀ f ∈ log, t.resolve f.1 = .ok (t₀.keyOf f.1)
  last : ∀ log ∈ logs, ∀ f ∈ log, ∃ log' ∈ logs, ∃ content,
    t₀.lastAt (t₀.keyOf f.1) log' = some content ∧
      t.node? (t₀.keyOf f.1) = some (.file content false)

namespace Holds
variable {t₀ t t' : FileTree} {before after : List Files} {log : Files} {p : Path}
  {content : List UInt8}

theorem start {logs : List Files} (h : ∀ log ∈ logs, log = []) : Holds t₀ t₀ logs := by
  refine ⟨rfl, fun log hlog f hf => ?_, fun log hlog f hf => ?_⟩ <;>
    · rw [h log hlog] at hf
      cases hf

theorem place (h : Holds t₀ t (before ++ log :: after)) (hp : t.place p content = .ok t') :
    Holds t₀ t' (before ++ (log ++ [(p, content)]) :: after) := by
  obtain ⟨hputs, hresolve⟩ := place_puts hp
  rw [keyOf_congr h.cwd] at hputs hresolve
  -- A file of some log is the new one or was there before.
  have hcases : ∀ l ∈ before ++ (log ++ [(p, content)]) :: after, ∀ f ∈ l,
      f = (p, content) ∨ ∃ l' ∈ before ++ log :: after, f ∈ l' := by
    intro l hl f hf
    simp only [mem_append, mem_cons] at hl ⊢
    rcases hl with hl | rfl | hl
    · exact .inr ⟨l, .inl hl, hf⟩
    · rcases mem_append.1 hf with hf | hf
      · exact .inr ⟨log, .inr (.inl rfl), hf⟩
      · exact .inl (mem_singleton.1 hf)
    · exact .inr ⟨l, .inr (.inr hl), hf⟩
  refine ⟨hputs.cwd.trans h.cwd, fun l hl f hf => ?_, fun l hl f hf => ?_⟩
  · rcases hcases l hl f hf with rfl | ⟨l', hl', hf⟩
    · exact hresolve
    · exact hputs.grows.resolve (h.resolve l' hl' f hf)
  · by_cases hk : t₀.keyOf p = t₀.keyOf f.1
    · refine ⟨log ++ [(p, content)], by simp, content, lastAt_of_eq hk content, ?_⟩
      rw [← hk]
      exact hputs.file
    · rcases hcases l hl f hf with rfl | ⟨l', hl', hf⟩
      · exact absurd rfl hk
      obtain ⟨m, hm, c, hlast, hnode⟩ := h.last l' hl' f hf
      have hnode' := (hputs.file_iff (Ne.symm hk)).2 hnode
      simp only [mem_append, mem_cons] at hm
      rcases hm with hm | rfl | hm
      · exact ⟨m, by simp [hm], c, hlast, hnode'⟩
      · exact ⟨m ++ [(p, content)], by simp, c, (lastAt_of_ne hk content).trans hlast, hnode'⟩
      · exact ⟨m, by simp [hm], c, hlast, hnode'⟩

end Holds
end FileTree

/-- Someone who works on an input. -/
structure Worker where
  task : Task
  /-- What has been put in place so far. -/
  log : Files

/-- Workers that share a tree. -/
structure Pool where
  tree : FileTree
  workers : List Worker

inductive Worker.Step : FileTree → Worker → FileTree → Worker → Prop
  | look {t : FileTree} {next : FileTree → Task} {log : Files} :
      Step t ⟨.look next, log⟩ t ⟨next t, log⟩
  | place {t t' : FileTree} {p : Path} {content : List UInt8} {next : Except Failure Unit → Task}
      {log : Files} : t.place p content = .ok t' →
      Step t ⟨.place p content next, log⟩ t' ⟨next (.ok ()), log ++ [(p, content)]⟩
  | refuse {t : FileTree} {p : Path} {content : List UInt8} {next : Except Failure Unit → Task}
      {log : Files} {e : Failure} : t.place p content = .error e →
      Step t ⟨.place p content next, log⟩ t ⟨next (.error e), log⟩

namespace Pool

inductive Step : Pool → Pool → Prop
  | work {t t' : FileTree} {w w' : Worker} (before after : List Worker) : w.Step t t' w' →
      Step ⟨t, before ++ w :: after⟩ ⟨t', before ++ w' :: after⟩

/-- The workers take steps in some order. -/
def Reaches : Pool → Pool → Prop := Relation.ReflTransGen Step

end Pool

/-- No path that is listed for targets in one report is listed so in the other. -/
def FileReport.Separate (r r' : FileReport) : Prop :=
  ∀ p ∈ r.targetArtifacts, ∀ q ∈ r'.targetArtifacts, p.same q = false

theorem FileReport.Separate.symm {r r' : FileReport} (h : r.Separate r') : r'.Separate r := by
  intro q hq p hp
  rw [Path.same, BEq.comm]
  exact h p hp q hq

section Steps
variable {seen : FileTree → Prop} {b : Builder} {t t' : FileTree} {w w' : Worker}

theorem Worker.Step.fits (h : w.Step t t' w') (ht : seen t) (hw : w.task.Fits b seen w.log) :
    w'.task.Fits b seen w'.log := by
  cases h with
  | look => exact hw t ht
  | place _ => exact hw.1
  | refuse _ => exact hw.2 _

theorem Worker.Step.holds {t₀ : FileTree} {before after : List Files} (h : w.Step t t' w')
    (hw : t₀.Holds t (before ++ w.log :: after)) : t₀.Holds t' (before ++ w'.log :: after) := by
  cases h with
  | look => exact hw
  | place hp => exact hw.place hp
  | refuse _ => exact hw

variable (before : List Worker)

/-- A worker may do all that is left to do before any other takes a step. -/
theorem Pool.reaches_finish (after : List Worker) (task : Task) (log : Files) (t : FileTree) :
    ∃ log', Reaches ⟨t, before ++ ⟨task, log⟩ :: after⟩
      ⟨(task.finish t).2, before ++ ⟨(task.finish t).1, log'⟩ :: after⟩ := by
  induction task generalizing log t with
  | built x => exact ⟨log, .refl⟩
  | failed report => exact ⟨log, .refl⟩
  | look next ih =>
    obtain ⟨log', h⟩ := ih t log t
    exact ⟨log', .head (.work before after .look) h⟩
  | place p content next ih =>
    rw [Task.finish]
    cases hp : t.place p content with
    | error e =>
      obtain ⟨log', h⟩ := ih (.error e) log t
      rw [attempt_of_error hp]
      exact ⟨log', .head (.work before after (.refuse hp)) h⟩
    | ok t' =>
      obtain ⟨log', h⟩ := ih (.ok ()) (log ++ [(p, content)]) t'
      rw [attempt_of_ok hp]
      exact ⟨log', .head (.work before after (.place hp)) h⟩

def Task.finishAll : List Task → FileTree → List Task × FileTree
  | [], t => ([], t)
  | task :: tasks, t =>
    ((task.finish t).1 :: (finishAll tasks (task.finish t).2).1,
      (finishAll tasks (task.finish t).2).2)

theorem Pool.reaches_finishAll (tasks : List Task) (t : FileTree) :
    ∃ workers, workers.map Worker.task = (Task.finishAll tasks t).1 ∧
      Reaches ⟨t, before ++ tasks.map (⟨·, []⟩)⟩
        ⟨(Task.finishAll tasks t).2, before ++ workers⟩ := by
  induction tasks generalizing before t with
  | nil => exact ⟨[], rfl, .refl⟩
  | cons task tasks ih =>
    obtain ⟨log, hfirst⟩ := reaches_finish before (tasks.map (⟨·, []⟩)) task [] t
    obtain ⟨workers, hw, hrest⟩ := ih (before ++ [⟨(task.finish t).1, log⟩]) (task.finish t).2
    refine ⟨⟨(task.finish t).1, log⟩ :: workers, ?_, hfirst.trans ?_⟩
    · simp [Task.finishAll, hw]
    · rw [append_assoc, append_assoc] at hrest
      exact hrest

end Steps

namespace Builder
variable {seen : FileTree → Prop}

def pool (b : Builder) (t : FileTree) (inputs : List Path) : Pool :=
  ⟨t, inputs.map fun input => ⟨b.task input, []⟩⟩

/-- A tree that is there at some moment while inputs are built. -/
def Seen (b : Builder) (t : FileTree) (inputs : List Path) (u : FileTree) : Prop :=
  ∃ ws, (b.pool t inputs).Reaches ⟨u, ws⟩

/-- What holds at every moment while inputs are built. -/
structure InOrder (b : Builder) (t : FileTree) (inputs : List Path) (pool : Pool) : Prop where
  fits : ∀ w ∈ pool.workers, w.task.Fits b (b.Seen t inputs) w.log
  holds : t.Holds pool.tree (pool.workers.map Worker.log)

section Running
variable {b : Builder} {t t' : FileTree} {inputs : List Path} {pool pool' : Pool}

theorem inOrder_start : b.InOrder t inputs (b.pool t inputs) := by
  refine ⟨fun w hw => ?_, .start fun log hlog => ?_⟩
  · obtain ⟨input, -, rfl⟩ := mem_map.1 hw
    exact fits_task input
  · simp only [Builder.pool, map_map, mem_map, Function.comp_apply] at hlog
    obtain ⟨input, -, rfl⟩ := hlog
    rfl

theorem InOrder.step (h : b.InOrder t inputs pool) (hseen : b.Seen t inputs pool.tree)
    (hstep : pool.Step pool') : b.InOrder t inputs pool' := by
  cases hstep with
  | work before after hw =>
    obtain ⟨hfits, hholds⟩ := h
    simp only [forall_mem_append, forall_mem_cons, map_append, map_cons]
      at hfits hholds
    refine ⟨?_, ?_⟩
    · simp only [forall_mem_append, forall_mem_cons]
      exact ⟨hfits.1, hw.fits hseen hfits.2.1, hfits.2.2⟩
    · rw [map_append, map_cons]
      exact hw.holds hholds

theorem inOrder_of_reaches (h : (b.pool t inputs).Reaches pool) : b.InOrder t inputs pool := by
  induction h with
  | refl => exact inOrder_start
  | tail hreaches hstep ih => exact ih.step ⟨_, hreaches⟩ hstep

/-- What a run tells of the reports on its inputs, which come in any order, and the tree it
leaves. -/
def settle (b : Builder) (t : FileTree) (reports : List FileReport) : BuildReport × FileTree :=
  let sorted := reports.mergeSort fun x y => x.input.compare y.input != .gt
  let (files, tree) := b.rejectShared t sorted
  ({ files, disabled := [], cancelled := false }, tree)

theorem buildFiles_eq (hc : b.config.compile = false) (hi : b.config.incremental = false)
    (t : FileTree) (inputs : List Path) :
    ∃ reports, (Task.finishAll (inputs.map b.task) t).1.map Task.report? = reports.map some ∧
      b.buildFiles (.ofTree t) inputs =
        (reports, .ofTree (Task.finishAll (inputs.map b.task) t).2) := by
  induction inputs generalizing t with
  | nil => exact ⟨[], rfl, rfl⟩
  | cons input inputs ih =>
    obtain ⟨r, hr, hfirst⟩ := buildFile_eq hc hi t input
    obtain ⟨reports, hreports, hrest⟩ := ih ((b.task input).finish t).2
    refine ⟨r :: reports, ?_, ?_⟩
    · simp [Task.finishAll, hr, hreports]
    · simp [buildFiles, hfirst, hrest, Task.finishAll]

/-- All workers are done, and their reports are in, in some order. -/
structure Finishes (b : Builder) (t : FileTree) (inputs : List Path) (pool : Pool)
    (reports : List FileReport) : Prop where
  reaches : (b.pool t inputs).Reaches pool
  reported : (pool.workers.map fun w => w.task.report?).Perm (reports.map some)

theorem exists_finishes (t : FileTree) (inputs : List Path) {reports : List FileReport}
    (h : (Task.finishAll (inputs.map b.task) t).1.map Task.report? = reports.map some) :
    ∃ pool, b.Finishes t inputs pool reports ∧
      pool.tree = (Task.finishAll (inputs.map b.task) t).2 ∧
      pool.workers.map Worker.task = (Task.finishAll (inputs.map b.task) t).1 := by
  obtain ⟨workers, hworkers, hreaches⟩ := Pool.reaches_finishAll [] (inputs.map b.task) t
  refine ⟨⟨(Task.finishAll (inputs.map b.task) t).2, workers⟩, ⟨?_, ?_⟩, rfl, hworkers⟩
  · simpa [Builder.pool, Function.comp_def] using hreaches
  · rw [← h, ← hworkers, map_map]
    exact .refl _

section Sharing
variable {r : FileReport} {reports : List FileReport}

/-- Where no input fails, nothing is taken back, and no two inputs have written the same paths for
their targets. -/
theorem pairwise_of_rejectShared (hcached : ∀ r ∈ reports, r.cached = false)
    (hs : ∀ r ∈ (b.rejectShared t reports).1, r.succeeded = true) :
    b.rejectShared t reports = (reports, t) ∧ reports.Pairwise FileReport.Separate := by
  have hnone {i : Nat} {r : FileReport} (hr : reports[i]? = some r) :
      b.clashesAt t reports i r = [] := by
    by_contra hne
    have hmem := mem_of_getElem? (getElem?_rejectShared (b := b) (t := t) hr)
    have herrors := (FileReport.succeeded_iff.1 (hs _ hmem)).1
    simp [hne] at herrors
  constructor
  · have hsame : (b.rejectShared t reports).1 = reports := by
      refine ext_getElem? fun i => ?_
      cases hr : reports[i]? with
      | none =>
        rw [getElem?_eq_none_iff] at hr ⊢
        simpa [rejectShared_eq] using hr
      | some r => simp [getElem?_rejectShared hr, hnone hr]
    have hrejected : b.rejectedInputs t reports = [] := by
      rw [rejectedInputs, map_eq_nil_iff, filter_eq_nil_iff]
      intro x hx
      simp [hnone (mk_mem_zipIdx_iff_getElem?.1 hx)]
    refine Prod.ext hsame ?_
    rw [rejectShared_eq, hrejected]
    rfl
  · rw [pairwise_iff_getElem]
    intro i j hi hj hij p hp q hq
    have howned : ∀ n (hn : n < reports.length),
        b.ownedOutputs t reports[n] = reports[n].targetArtifacts := by
      intro n hn
      simp [ownedOutputs, hcached reports[n] (getElem_mem hn)]
    by_contra hsame
    have hshares : ∃ p, b.Shares t reports[i] reports[j] p := by
      rw [exists_shares, howned i hi, howned j hj]
      exact ⟨p, hp, q, hq, by simpa using hsame⟩
    have hi' : reports[i]? = some reports[i] := getElem?_eq_getElem hi
    obtain ⟨c, hc, -⟩ := ((clashing_clashesAt hi').complete j _ (getElem?_eq_getElem hj)).2
      ⟨by omega, hshares⟩
    rw [hnone hi'] at hc
    cases hc

end Sharing
end Running

/-- Wherever a report lists a file, the tree holds what was last generated there for its input. -/
def Intact (b : Builder) (t : FileTree) (xs : List Build) : Prop :=
  ∀ x ∈ xs, ∀ p ∈ x.report.artifacts, ∃ bytes,
    t.lastAt (t.keyOf p) (b.generated x.file) = some bytes ∧ t.read p = .ok bytes

section Integrity
variable {b : Builder} {t t₀ : FileTree} {k : FileTree.Key} {f g : ShaderFile} {xs : List Build}
  {content : List UInt8}

theorem lastAt_targeted (h : t.lastAt k (b.reflected f) = some content) (g : ShaderFile) :
    t.lastAt k (b.targeted g) = none := by
  obtain ⟨table, htable, rfl⟩ := exists_mem_of_lastAt h
  rw [lastAt_eq_none]
  intro file hfile
  exact Path.keyOf_ne_of_endsIn (b.endsIn_targeted g file hfile)
    (b.endsIn_reflected f table htable) t

theorem agree_generated : t.Agree (b.generated f) (b.generated g) ↔
    t.Agree (b.reflected f) (b.reflected g) ∧ t.Agree (b.targeted f) (b.targeted g) := by
  simp only [FileTree.Agree, generated, lastAt_append]
  constructor
  · refine fun h => ⟨fun k x y hx hy => h k x y ?_ ?_, fun k x y hx hy => h k x y ?_ ?_⟩
    · rw [lastAt_targeted hx, hx, Option.none_or]
    · rw [lastAt_targeted hy, hy, Option.none_or]
    · rw [hx, Option.some_or]
    · rw [hy, Option.some_or]
  · rintro ⟨htables, htargets⟩ k x y hx hy
    rcases Option.or_eq_some_iff.1 hx with hx | ⟨hxn, hx⟩ <;>
      rcases Option.or_eq_some_iff.1 hy with hy | ⟨hyn, hy⟩
    · exact htargets k x y hx hy
    · cases hx.symm.trans (lastAt_targeted hy f)
    · cases hy.symm.trans (lastAt_targeted hx g)
    · exact htables k x y hx hy

/-- What a listed place holds has been generated for one of the inputs. -/
theorem exists_read (h : t₀.Holds t (xs.map b.logOf)) {x : Build} (hx : x ∈ xs)
    {file : Path × List UInt8} (hfile : file ∈ b.generated x.file) : ∃ y ∈ xs, ∃ bytes,
      t.lastAt (t.keyOf file.1) (b.generated y.file) = some bytes ∧ t.read file.1 = .ok bytes := by
  have hlog : b.logOf x ∈ xs.map b.logOf := mem_map_of_mem hx
  have hmem : file ∈ b.logOf x := mem_append_left _ hfile
  obtain ⟨log', hlog', bytes, hlast, hnode⟩ := h.last _ hlog file hmem
  obtain ⟨y, hy, rfl⟩ := mem_map.1 hlog'
  have hrow : t₀.keyOf (b.cache.rowPath y.canonical) ≠ t₀.keyOf file.1 :=
    (BuildCache.keyOf_ne_rowPath (b.isArtifact_generated x.file file hfile) _ _ _).symm
  rw [logOf, lastAt_of_ne hrow] at hlast
  refine ⟨y, hy, bytes, ?_, read_eq_ok.2 ⟨?_, false, ?_⟩⟩
  · rw [keyOf_congr h.cwd, lastAt_congr h.cwd, hlast]
  · rw [keyOf_congr h.cwd]
    exact h.resolve _ hlog file hmem
  · rw [keyOf_congr h.cwd, hnode]

/-- Whatever the order in which files were put in place, each input finds its own if and only if
they agree. -/
theorem intact_iff (h : t₀.Holds t (xs.map b.logOf))
    (hlisted : ∀ x ∈ xs, x.report.artifacts = (b.generated x.file).map Prod.fst) :
    b.Intact t xs ↔ ∀ x ∈ xs, ∀ y ∈ xs, t.Agree (b.generated x.file) (b.generated y.file) := by
  constructor
  · intro hintact x hx y hy k bytes bytes' hbytes hbytes'
    have hholds : ∀ z ∈ xs, ∀ c, t.lastAt k (b.generated z.file) = some c →
        ∃ e, t.node? k = some (.file c e) := by
      intro z hz c hc
      obtain ⟨file, hfile, rfl⟩ := exists_mem_of_lastAt hc
      obtain ⟨c', hc', hread⟩ := hintact z hz file.1 (hlisted z hz ▸ mem_map_of_mem hfile)
      obtain rfl : c = c' := Option.some.inj (hc.symm.trans hc')
      exact (read_eq_ok.1 hread).2
    obtain ⟨e, hnode⟩ := hholds x hx bytes hbytes
    obtain ⟨e', hnode'⟩ := hholds y hy bytes' hbytes'
    cases hnode.symm.trans hnode'
    rfl
  · intro hagree x hx p hp
    rw [hlisted x hx] at hp
    obtain ⟨file, hfile, rfl⟩ := mem_map.1 hp
    obtain ⟨bytes, hbytes⟩ := exists_lastAt (t := t) hfile
    obtain ⟨y, hy, bytes', hbytes', hread⟩ := exists_read h hx hfile
    obtain rfl := hagree x hx y hy _ bytes bytes' hbytes hbytes'
    exact ⟨bytes, hbytes, hread⟩

theorem exists_builds {ws : List Worker}
    (h : ∀ w ∈ ws, ∃ x, w.task = .built x ∧ b.Makes seen x w.log) :
    ∃ xs : List Build, ws.map Worker.task = xs.map .built ∧ ws.map Worker.log = xs.map b.logOf ∧
      ∀ x ∈ xs, b.Makes seen x (b.logOf x) := by
  induction ws with
  | nil => exact ⟨[], rfl, rfl, by simp⟩
  | cons w ws ih =>
    rw [forall_mem_cons] at h
    obtain ⟨⟨x, htask, hx⟩, h⟩ := h
    obtain ⟨xs, htasks, hlogs, hxs⟩ := ih h
    refine ⟨x :: xs, by simp [htask, htasks], by simp [hx.log, hlogs], ?_⟩
    exact forall_mem_cons.2 ⟨hx.log ▸ hx, hxs⟩

/-- Workers whose reports all pass have built their inputs, and have written no path twice for their
targets. -/
theorem Finishes.builds {inputs : List Path} {pool : Pool} {reports : List FileReport}
    (h : b.Finishes t inputs pool reports) (hs : (b.settle pool.tree reports).1.succeeded = true) :
    (b.settle pool.tree reports).2 = pool.tree ∧
      ∃ xs : List Build, pool.workers.map Worker.task = xs.map .built ∧
        t.Holds pool.tree (xs.map b.logOf) ∧ (∀ x ∈ xs, b.Makes (b.Seen t inputs) x (b.logOf x)) ∧
        xs.Pairwise fun x y => x.report.Separate y.report := by
  obtain ⟨hfits, hholds⟩ := inOrder_of_reaches h.reaches
  have hworker : ∀ w ∈ pool.workers, ∃ r ∈ reports, w.task.report? = some r := by
    intro w hw
    obtain ⟨r, hr, he⟩ := mem_map.1 (h.reported.subset (mem_map_of_mem hw))
    exact ⟨r, hr, he.symm⟩
  have hcached : ∀ r ∈ reports, r.cached = false := by
    intro r hr
    obtain ⟨w, hw, he⟩ := mem_map.1 (h.reported.symm.subset (mem_map_of_mem hr))
    exact (hfits w hw).cached he
  have hsorted := mergeSort_perm reports fun x y => x.input.compare y.input != .gt
  simp only [settle, BuildReport.succeeded, Bool.not_false, Bool.true_and, all_eq_true] at hs ⊢
  obtain ⟨hreject, hpairwise⟩ := pairwise_of_rejectShared
    (fun r hr => hcached r (hsorted.subset hr)) hs
  rw [hreject] at hs ⊢
  obtain ⟨xs, htasks, hlogs, hxs⟩ := exists_builds fun w hw => by
    obtain ⟨r, hr, he⟩ := hworker w hw
    exact (hfits w hw).makes he (hs r (hsorted.symm.subset hr))
  refine ⟨rfl, xs, htasks, hlogs ▸ hholds, hxs, ?_⟩
  have hreports : (xs.map fun x => x.report).Perm reports := by
    have hall :
        (pool.workers.map fun w => w.task.report?) = (xs.map fun x => x.report).map some := by
      have he := congrArg (List.map Task.report?) htasks
      simpa [Function.comp_def, Task.report?] using he
    have hperm := (hall ▸ h.reported).filterMap id
    simpa using hperm
  exact pairwise_map.1 (((hsorted.trans hreports.symm).pairwise_iff .symm).1 hpairwise)

end Integrity

/-- Building inputs one after the other is one of the ways in which workers can build them. In each
of them, if nothing fails, the reports list what was generated, and the tree holds it where it is
listed if and only if any two inputs agree on tables that they describe in one place and on files
that they put in one place for targets; for the latter, their paths are spelled differently. -/
theorem intact_iff_agree {b : Builder} (hc : b.config.compile = false)
    (hi : b.config.incremental = false) (t : FileTree) (inputs : List Path) :
    (∃ pool reports, b.Finishes t inputs pool reports ∧ b.run (.ofTree t) inputs =
      ((b.settle pool.tree reports).1, .ofTree (b.settle pool.tree reports).2)) ∧
    ∀ pool reports, b.Finishes t inputs pool reports →
      (b.settle pool.tree reports).1.succeeded = true →
      ∃ xs : List Build, pool.workers.map Worker.task = xs.map .built ∧
        (∀ x ∈ xs, (∃ u, b.Seen t inputs u ∧
            ShaderFile.load u b.config.includePaths x.report.input = .ok x.file) ∧
          x.report.reflection = (b.reflected x.file).map Prod.fst ∧
          x.report.targetArtifacts = (b.targeted x.file).map Prod.fst) ∧
        (b.Intact (b.settle pool.tree reports).2 xs ↔ ∀ x ∈ xs, ∀ y ∈ xs,
          t.Agree (b.reflected x.file) (b.reflected y.file) ∧
            t.Agree (b.targeted x.file) (b.targeted y.file)) ∧
        xs.Pairwise fun x y => x.report.Separate y.report := by
  constructor
  · obtain ⟨reports, hreports, hbuild⟩ := buildFiles_eq hc hi t inputs
    obtain ⟨pool, hfinishes, htree, -⟩ := exists_finishes t inputs hreports
    refine ⟨pool, reports, hfinishes, ?_⟩
    rw [run, hbuild, htree]
    rfl
  · intro pool reports hfinishes hs
    obtain ⟨htree, xs, htasks, hholds, hmakes, hseparate⟩ := hfinishes.builds hs
    refine ⟨xs, htasks, fun x hx => ?_, ?_, hseparate⟩
    · have hx := hmakes x hx
      exact ⟨hx.input ▸ hx.read, hx.reflection, hx.targets⟩
    · rw [htree, intact_iff hholds fun x hx => ?_]
      · simp only [agree_congr hholds.cwd, agree_generated]
      · rw [FileReport.artifacts, (hmakes x hx).reflection, (hmakes x hx).targets, generated,
          map_append]

/-- Two files whose tables have one name. -/
def twoTables : FileTree :=
  ⟨[], [(["a"], .file (Text.utf8 "BEGIN_SRT(S)END_SRT(S)") false),
    (["b"], .file (Text.utf8
      "BEGIN_SRT(S)BEGIN_SRT_SET(PerDraw)END_SRT_SET(PerDraw)END_SRT(S)") false)]⟩

def tableBuilder : Builder :=
  ⟨{ BuildConfig.standard with
    targets := [.vulkan], compile := false, outDir := ⟨""⟩, cacheDir := some ⟨""⟩ }, []⟩

def tableOutcome : List Task × FileTree :=
  Task.finishAll ([⟨"a"⟩, ⟨"b"⟩].map tableBuilder.task) twoTables

/-- How long the description is that is generated for the table. -/
def tableLength : Task → Option Nat
  | .built x =>
    (twoTables.lastAt ["reflection", "S.srt.json"] (tableBuilder.reflected x.file)).map List.length
  | _ => none

theorem tableOutcome_eq : tableOutcome.1.map tableLength = [some 31, some 127] ∧
    (tableOutcome.1.filterMap Task.report?).Pairwise (fun x y => x.input.compare y.input != .gt) ∧
    ((tableBuilder.rejectShared tableOutcome.2 (tableOutcome.1.filterMap Task.report?)).1.all
      FileReport.succeeded) = true := by
  decide +kernel

/-- Both files are built without fault, and one of them does not find the table that it
describes. -/
theorem intact_iff_agree_twoTables : ∃ pool reports xs,
    tableBuilder.Finishes twoTables [⟨"a"⟩, ⟨"b"⟩] pool reports ∧
      (tableBuilder.settle pool.tree reports).1.succeeded = true ∧
      pool.workers.map Worker.task = xs.map .built ∧
      ¬ tableBuilder.Intact (tableBuilder.settle pool.tree reports).2 xs := by
  obtain ⟨hlengths, hsorted, hall⟩ := tableOutcome_eq
  obtain ⟨reports, hreports, -⟩ :=
    buildFiles_eq (b := tableBuilder) rfl rfl twoTables [⟨"a"⟩, ⟨"b"⟩]
  obtain ⟨pool, hfinishes, htree, htasks⟩ := exists_finishes twoTables [⟨"a"⟩, ⟨"b"⟩] hreports
  rw [← tableOutcome] at hreports htree htasks
  have hreported : tableOutcome.1.filterMap Task.report? = reports := by
    have hmap := congrArg (List.filterMap id) hreports
    simpa using hmap
  rw [hreported, ← htree] at hall
  rw [hreported] at hsorted
  have hs : (tableBuilder.settle pool.tree reports).1.succeeded = true := by
    simp only [settle, mergeSort_of_pairwise hsorted, BuildReport.succeeded, hall, Bool.not_false,
      Bool.and_self]
  obtain ⟨xs, hxs, -, hiff, -⟩ :=
    (intact_iff_agree (b := tableBuilder) rfl rfl twoTables _).2 pool reports hfinishes hs
  refine ⟨pool, reports, xs, hfinishes, hs, hxs, fun hintact => ?_⟩
  rw [← htasks, hxs, map_map] at hlengths
  obtain ⟨x, hx, hfirst⟩ := mem_map.1 (hlengths.symm ▸ mem_cons_self)
  obtain ⟨y, hy, hsecond⟩ := mem_map.1 (hlengths.symm ▸ mem_cons_of_mem _ mem_cons_self)
  obtain ⟨first, hfirst, hn⟩ := Option.map_eq_some_iff.1 hfirst
  obtain ⟨second, hsecond, hm⟩ := Option.map_eq_some_iff.1 hsecond
  obtain rfl := (hiff.1 hintact x hx y hy).1 _ first second hfirst hsecond
  omega

end Builder
end ShaderDialect
