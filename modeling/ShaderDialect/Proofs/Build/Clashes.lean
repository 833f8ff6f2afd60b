import ShaderDialect.Build
import ShaderDialect.Proofs.Build.Rows
import ShaderDialect.Proofs.FileTree.Dropping
import ShaderDialect.Proofs.FileTree.Looking
import ShaderDialect.Proofs.Path.Order

/-! Inputs whose files belong to other inputs too. Each is told of every other one, with the least
of the files that they share, and loses its row. No other report changes, and no other row, but one
that has the same file: rows are named by the fingerprints of the inputs, and two of these may be
equal. -/
namespace ShaderDialect

open FileTree List Std Success

namespace Path
variable {p q : Path}

theorem same_iff : p.same q = true ↔ p.components = q.components := beq_iff_eq

theorem isLE_compare_self (p : Path) : (p.compare p).isLE = true := by
  have hself : p.compare p = .eq := ReflCmp.compare_self
  rw [hself]
  rfl

theorem isLE_of_compare_eq_gt (h : p.compare q = .gt) : (q.compare p).isLE = true := by
  have hswap : q.compare p = (p.compare q).swap := OrientedCmp.eq_swap
  rw [hswap, h]
  rfl

end Path

namespace BuildCache
variable {cache : BuildCache} {t u : FileTree} {input : Path} {row : CacheRow}

theorem exists_read_of_load (h : cache.load t input = some row) :
    ∃ bytes, t.read (cache.rowPath input) = .ok bytes := by
  obtain ⟨hread, -⟩ := Option.filter_eq_some_iff.1 h
  exact CacheRow.exists_read_of_read? hread

/-- What a row is depends on the bytes of its file alone. -/
theorem load_congr
    (h : (u.read (cache.rowPath input)).toOption = (t.read (cache.rowPath input)).toOption) :
    cache.load u input = cache.load t input := by
  have htext (t : FileTree) (p : Path) :
      (t.readText p).toOption = (t.read p).toOption.bind Text.ofUtf8? := by
    cases hr : t.read p with
    | error e => simp [readText, hr, bind, Except.bind, Except.toOption]
    | ok bytes =>
      cases hs : Text.ofUtf8? bytes <;>
        simp [readText, hr, hs, bind, Except.bind, Except.toOption, throw, throwThe,
          MonadExceptOf.throw, pure, Except.pure]
  simp only [load, CacheRow.read?, htext, h]

end BuildCache

namespace Builder

section Least
variable {ps qs : List Path} {p : Path}

theorem isLE_of_foldr_lesser (h : ps.foldr (fun p least => some (lesser p least)) none = some p) :
    p ∈ ps ∧ ∀ q ∈ ps, (p.compare q).isLE := by
  induction ps generalizing p with
  | nil => cases h
  | cons a ps ih =>
    cases h
    cases hleast : ps.foldr (fun p least => some (lesser p least)) none with
    | none =>
      have hps : ps = [] := by
        cases ps with
        | nil => rfl
        | cons _ _ => cases hleast
      simp [hps, lesser, a.isLE_compare_self]
    | some q =>
      obtain ⟨hmem, hle⟩ := ih hleast
      rw [lesser]
      split
      · next hgt =>
        exact ⟨mem_cons_of_mem a hmem,
          forall_mem_cons.2 ⟨Path.isLE_of_compare_eq_gt hgt, hle⟩⟩
      · next hgt =>
        have hlow : (a.compare q).isLE = true := by
          cases hcompare : a.compare q with
          | gt => exact absurd hcompare hgt
          | _ => rfl
        exact ⟨mem_cons_self, forall_mem_cons.2
          ⟨a.isLE_compare_self, fun x hx => TransCmp.isLE_trans hlow (hle x hx)⟩⟩

theorem leastShared?_eq_none :
    leastShared? ps qs = none ↔ ∀ p ∈ ps, ∀ q ∈ qs, p.same q = false := by
  have hfoldr (ps : List Path) :
      ps.foldr (fun p least => some (lesser p least)) none = none ↔ ps = [] := by
    cases ps <;> simp
  simp [leastShared?, hfoldr, filter_eq_nil_iff]

theorem leastShared?_eq_some (h : leastShared? ps qs = some p) : p ∈ ps ∧ (∃ q ∈ qs, p.same q) ∧
    ∀ p' ∈ ps, ∀ q ∈ qs, p'.same q → (p.compare p').isLE := by
  obtain ⟨hmem, hle⟩ := isLE_of_foldr_lesser h
  rw [mem_filter, any_eq_true] at hmem
  refine ⟨hmem.1, hmem.2, fun p' hp' q hq hsame => hle p' ?_⟩
  rw [mem_filter, any_eq_true]
  exact ⟨hp', q, hq, hsame⟩

end Least

variable (b : Builder) {t u : FileTree} {r s : FileReport} {reports : List FileReport}
  {input p c d : Path} {places : Set FileTree.Key} {row : CacheRow}

def row? (t : FileTree) (input : Path) : Option CacheRow :=
  (t.canonical input).toOption.bind (b.cache.load t)

/-- A file belongs to an input if it has just been written for a target. To an input that has been
skipped belong the files of its row, but those that describe tables. -/
inductive Owns (t : FileTree) (r : FileReport) (p : Path) : Prop
  | written {target : TargetReport} : r.cached = false → target ∈ r.targets →
      p ∈ target.artifacts → Owns t r p
  | recorded {row : CacheRow} : r.cached = true → b.row? t r.input = some row → p ∈ row.outputs →
      p.startsWith b.reflectionDir = false → Owns t r p

/-- A path belongs to two inputs, however each of them writes it. -/
def Shares (t : FileTree) (r s : FileReport) (p : Path) : Prop :=
  (∃ q, b.Owns t r q ∧ q.same p) ∧ ∃ q, b.Owns t s q ∧ q.same p

structure LeastShared (t : FileTree) (r s : FileReport) (p : Path) : Prop where
  shares : b.Shares t r s p
  isLE : ∀ q, b.Shares t r s q → (p.compare q).isLE

/-- The other inputs that files of the input at a position belong to, in order and each of them
once. -/
structure Clashing (t : FileTree) (reports : List FileReport) (i : Nat) (r : FileReport)
    (clashes : List Clash) : Prop where
  sorted : (clashes.map Clash.position).Pairwise (· < ·)
  complete : ∀ j s, reports[j]? = some s →
    ((∃ c ∈ clashes, c.position = j) ↔ j ≠ i ∧ ∃ p, b.Shares t r s p)
  other : ∀ c ∈ clashes, reports[c.position]? = some c.other
  least : ∀ c ∈ clashes, b.LeastShared t r c.other c.path
  /-- The path is shown as the first input that it belongs to writes it. -/
  spelling : ∀ c ∈ clashes, (reports.flatMap (b.ownedOutputs t)).find? c.path.same = some c.path

/-- An input that shares files has a canonical path with the fingerprint of another one, so that the
rows of both have the same file. -/
def Collides (t : FileTree) (reports : List FileReport) (c : Path) : Prop :=
  ∃ j s clashes d, reports[j]? = some s ∧ b.Clashing t reports j s clashes ∧ clashes ≠ [] ∧
    t.canonical s.input = .ok d ∧ Fingerprint.ofText d.text = Fingerprint.ofText c.text

variable {b}

theorem mem_ownedOutputs : p ∈ b.ownedOutputs t r ↔ b.Owns t r p := by
  rw [ownedOutputs]
  cases hcached : r.cached with
  | false =>
    simp only [Bool.false_eq_true, if_false, FileReport.targetArtifacts, mem_flatMap]
    constructor
    · rintro ⟨target, htarget, hp⟩
      exact .written hcached htarget hp
    · rintro (⟨-, htarget, hp⟩ | ⟨htrue, -⟩)
      · exact ⟨_, htarget, hp⟩
      · cases hcached.symm.trans htrue
  | true =>
    have hrow : b.Owns t r p ↔ ∃ row, b.row? t r.input = some row ∧ p ∈ row.outputs ∧
        p.startsWith b.reflectionDir = false := by
      constructor
      · rintro (⟨hfalse, -, -⟩ | ⟨-, hrow, hp, hstart⟩)
        · cases hcached.symm.trans hfalse
        · exact ⟨_, hrow, hp, hstart⟩
      · rintro ⟨row, hrow, hp, hstart⟩
        exact .recorded hcached hrow hp hstart
    rw [hrow, row?, if_pos rfl]
    cases t.canonical r.input with
    | error e => simp [Except.toOption]
    | ok c => cases hload : b.cache.load t c <;> simp [Except.toOption, hload]

theorem exists_shares : (∃ p, b.Shares t r s p) ↔
    ∃ p ∈ b.ownedOutputs t r, ∃ q ∈ b.ownedOutputs t s, p.same q := by
  simp only [Shares, ← mem_ownedOutputs]
  constructor
  · rintro ⟨p, ⟨q, hq, hsame⟩, q', hq', hsame'⟩
    rw [Path.same_iff] at hsame hsame'
    exact ⟨q, hq, q', hq', Path.same_iff.2 (hsame.trans hsame'.symm)⟩
  · rintro ⟨p, hp, q, hq, hsame⟩
    exact ⟨q, ⟨p, hp, hsame⟩, q, hq, Path.same_iff.2 rfl⟩

/-- The least path of a list that another list has too is the least one that is shared. -/
theorem leastShared_of_leastShared? {q : Path}
    (h : leastShared? (b.ownedOutputs t r) (b.ownedOutputs t s) = some p) (hq : p.same q) :
    b.LeastShared t r s q := by
  obtain ⟨hmem, ⟨p', hp', hsame⟩, hle⟩ := leastShared?_eq_some h
  rw [Path.same_iff] at hq hsame
  refine ⟨⟨⟨p, mem_ownedOutputs.1 hmem, Path.same_iff.2 hq⟩, p', mem_ownedOutputs.1 hp',
    Path.same_iff.2 (hsame.symm.trans hq)⟩, ?_⟩
  rintro q' ⟨⟨x, hx, hxq⟩, y, hy, hyq⟩
  rw [Path.same_iff] at hxq hyq
  have hlow := hle x (mem_ownedOutputs.2 hx) y (mem_ownedOutputs.2 hy)
    (Path.same_iff.2 (hxq.trans hyq.symm))
  rwa [Path.compare, hq, hxq] at hlow

section Listed
variable {files : List (FileReport × List Path)} {i : Nat} {owned : List Path} {c : Clash}

theorem mem_clashes : c ∈ clashes files i owned ↔ ∃ otherOwned p,
    files[c.position]? = some (c.other, otherOwned) ∧ c.position ≠ i ∧
      leastShared? owned otherOwned = some p ∧ c.path = spelling files p := by
  obtain ⟨j, other, path⟩ := c
  simp only [clashes, mem_filterMap, Prod.exists, mk_mem_zipIdx_iff_getElem?,
    Option.ite_none_left_eq_some, Option.map_eq_some_iff, Clash.mk.injEq]
  constructor
  · rintro ⟨other, otherOwned, j, hfile, hj, p, hp, rfl, rfl, rfl⟩
    exact ⟨otherOwned, p, hfile, hj, hp, rfl⟩
  · rintro ⟨otherOwned, p, hfile, hj, hp, rfl⟩
    exact ⟨other, otherOwned, j, hfile, hj, p, hp, rfl, rfl, rfl⟩

theorem pairwise_position_clashes :
    ((clashes files i owned).map Clash.position).Pairwise (· < ·) := by
  have hzip : files.zipIdx.Pairwise fun x y => x.2 < y.2 := by
    rw [← pairwise_map (f := Prod.snd), zipIdx_map_snd]
    exact pairwise_lt_range'
  rw [pairwise_map, clashes, pairwise_filterMap]
  refine hzip.imp fun {x y} hlt c hc d hd => ?_
  simp only [Option.ite_none_left_eq_some, Option.map_eq_some_iff] at hc hd
  obtain ⟨-, _, -, rfl⟩ := hc
  obtain ⟨-, _, -, rfl⟩ := hd
  exact hlt

theorem find?_spelling (hp : p ∈ files.flatMap Prod.snd) :
    (files.flatMap Prod.snd).find? p.same = some (spelling files p) ∧
    p.same (spelling files p) := by
  cases hfind : (files.flatMap Prod.snd).find? p.same with
  | none => simpa [Path.same_iff] using find?_eq_none.1 hfind p hp
  | some q =>
    have hq : spelling files p = q := by rw [spelling, hfind]; rfl
    rw [hq]
    exact ⟨rfl, by simpa using find?_some hfind⟩

end Listed

/-- Reports with the files that belong to their inputs. -/
def withOwned (b : Builder) (t : FileTree) (reports : List FileReport) :
    List (FileReport × List Path) :=
  reports.map fun r => (r, b.ownedOutputs t r)

def clashesAt (b : Builder) (t : FileTree) (reports : List FileReport) (i : Nat) (r : FileReport) :
    List Clash :=
  clashes (b.withOwned t reports) i (b.ownedOutputs t r)

theorem mem_clashesAt {i : Nat} {c : Clash} : c ∈ b.clashesAt t reports i r ↔
    reports[c.position]? = some c.other ∧ c.position ≠ i ∧
      ∃ p, leastShared? (b.ownedOutputs t r) (b.ownedOutputs t c.other) = some p ∧
        c.path = spelling (b.withOwned t reports) p := by
  rw [clashesAt, mem_clashes]
  simp only [withOwned, getElem?_map, Option.map_eq_some_iff, Prod.mk.injEq]
  constructor
  · rintro ⟨_, p, ⟨s, hs, rfl, rfl⟩, hne, hp, hpath⟩
    exact ⟨hs, hne, p, hp, hpath⟩
  · rintro ⟨hs, hne, p, hp, hpath⟩
    exact ⟨_, p, ⟨_, hs, rfl, rfl⟩, hne, hp, hpath⟩

theorem clashing_clashesAt {i : Nat} (hr : reports[i]? = some r) :
    b.Clashing t reports i r (b.clashesAt t reports i r) := by
  have hflat : (b.withOwned t reports).flatMap Prod.snd = reports.flatMap (b.ownedOutputs t) :=
    flatMap_map _ _ _
  -- The least shared path is among the files of the input, and so it is spelled somewhere.
  have hspelled {s : FileReport} {p : Path}
      (hp : leastShared? (b.ownedOutputs t r) (b.ownedOutputs t s) = some p) :
      p ∈ (b.withOwned t reports).flatMap Prod.snd := by
    rw [hflat, mem_flatMap]
    exact ⟨r, mem_of_getElem? hr, (leastShared?_eq_some hp).1⟩
  refine ⟨pairwise_position_clashes, fun j s hs => ?_, fun c hc => (mem_clashesAt.1 hc).1,
    fun c hc => ?_, fun c hc => ?_⟩
  · rw [exists_shares]
    constructor
    · rintro ⟨c, hc, rfl⟩
      obtain ⟨hother, hne, p, hp, -⟩ := mem_clashesAt.1 hc
      cases hs.symm.trans hother
      obtain ⟨hmem, ⟨q, hq, hsame⟩, -⟩ := leastShared?_eq_some hp
      exact ⟨hne, p, hmem, q, hq, hsame⟩
    · rintro ⟨hne, p, hp, q, hq, hsame⟩
      obtain ⟨least, hleast⟩ : ∃ least,
          leastShared? (b.ownedOutputs t r) (b.ownedOutputs t s) = some least := by
        rw [← Option.ne_none_iff_exists']
        intro hnone
        cases hsame.symm.trans (leastShared?_eq_none.1 hnone p hp q hq)
      exact ⟨⟨j, s, _⟩, mem_clashesAt.2 ⟨hs, hne, least, hleast, rfl⟩, rfl⟩
  · obtain ⟨-, -, p, hp, hpath⟩ := mem_clashesAt.1 hc
    rw [hpath]
    exact leastShared_of_leastShared? hp (find?_spelling (hspelled hp)).2
  · obtain ⟨-, -, p, hp, hpath⟩ := mem_clashesAt.1 hc
    obtain ⟨hfind, hsame⟩ := find?_spelling (hspelled hp)
    have hsames : c.path.same = p.same := by
      funext q
      rw [hpath, Path.same, Path.same, Path.same_iff.1 hsame]
    rw [hsames, ← hflat, hfind, hpath]

/-! What becomes of the rows. -/

theorem loses_forget (b : Builder) (t : FileTree) (input : Path) :
    FileTree.Loses {k | ∃ c, t.canonical input = .ok c ∧ k = t.keyOf (b.cache.rowPath c)} t
      (b.forget t input) := by
  rw [forget]
  split
  · next c hc =>
    cases hd : b.cache.invalidate t c with
    | error e => exact .refl _ _
    | ok u =>
      have hloses : FileTree.Loses {t.keyOf (b.cache.rowPath c)} t u := loses_discard hd
      exact hloses.mono fun k hk => ⟨c, hc, hk⟩
  · exact .refl _ _

theorem row?_eq_some : b.row? t input = some row ↔
    ∃ c, t.canonical input = .ok c ∧ b.cache.load t c = some row := by
  rw [row?]
  cases t.canonical input <;> simp [Except.toOption]

/-- The file of a row that has been dropped cannot be read, whichever input the row is of. -/
theorem read_forget (hc : t.canonical input = .ok c) (bytes : List UInt8) :
    (b.forget t input).read (b.cache.rowPath c) ≠ .ok bytes := by
  intro hread
  -- The file could be read before, and so it was dropped.
  have hloses := b.loses_forget t input
  have hbefore := hloses.read_of_read hread
  have hforget : b.forget t input = t.erase (t.keyOf (b.cache.rowPath c)) := by
    rw [forget, hc]
    simp only [BuildCache.invalidate, discard_of_read hbefore]
    rfl
  obtain ⟨-, executable, hnode⟩ := read_eq_ok.1 hread
  rw [keyOf_congr hloses.cwd, hforget, BuildCache.keyOf_rowPath,
    node?_erase_self (by simp)] at hnode
  cases hnode

def rowKeys (b : Builder) (t : FileTree) (inputs : List Path) : Set FileTree.Key :=
  {k | ∃ input ∈ inputs, ∃ c, t.canonical input = .ok c ∧ k = t.keyOf (b.cache.rowPath c)}

/-- Only rows of the inputs that are forgotten are lost. -/
theorem loses_foldl_forget (b : Builder) (t : FileTree) (inputs : List Path) :
    FileTree.Loses (b.rowKeys t inputs) t (inputs.foldl b.forget t) := by
  induction inputs generalizing t with
  | nil => exact .refl _ _
  | cons input inputs ih =>
    have hfirst := b.loses_forget t input
    refine FileTree.Loses.trans (hfirst.mono ?_) ((ih (b.forget t input)).mono ?_)
    · rintro k ⟨c, hc, hk⟩
      exact ⟨input, mem_cons_self, c, hc, hk⟩
    · rintro k ⟨input', hinput', c, hc, hk⟩
      exact ⟨input', mem_cons_of_mem _ hinput', c, hfirst.canonical_of_canonical hc,
        hk.trans (keyOf_congr hfirst.cwd _)⟩

theorem load_foldl_forget (hd : t.canonical input = .ok d)
    (hname : Fingerprint.ofText d.text = Fingerprint.ofText c.text) (inputs : List Path) :
    b.cache.load ((input :: inputs).foldl b.forget t) c = none := by
  by_contra hne
  obtain ⟨row, hrow⟩ := Option.ne_none_iff_exists'.1 hne
  obtain ⟨bytes, hread⟩ := BuildCache.exists_read_of_load hrow
  have hpath : b.cache.rowPath c = b.cache.rowPath d := by simp only [BuildCache.rowPath, hname]
  rw [hpath] at hread
  exact read_forget hd bytes ((b.loses_foldl_forget _ inputs).read_of_read hread)

theorem row?_foldl_forget {inputs : List Path} (h : input ∈ inputs) (t : FileTree) :
    b.row? (inputs.foldl b.forget t) input = none := by
  induction inputs generalizing t with
  | nil => cases h
  | cons first inputs ih =>
    rcases mem_cons.1 h with rfl | h
    · by_contra hne
      obtain ⟨row, hrow⟩ := Option.ne_none_iff_exists'.1 hne
      obtain ⟨c, hc, hload⟩ := row?_eq_some.1 hrow
      have hbefore := (b.loses_foldl_forget t (input :: inputs)).canonical_of_canonical hc
      cases (load_foldl_forget hbefore rfl inputs).symm.trans hload
    · exact ih h _

/-- The inputs that fail because of others. -/
def rejectedInputs (b : Builder) (t : FileTree) (reports : List FileReport) : List Path :=
  (reports.zipIdx.filter fun x => !(b.clashesAt t reports x.2 x.1).isEmpty).map fun x => x.1.input

theorem rejectShared_eq (b : Builder) (t : FileTree) (reports : List FileReport) :
    b.rejectShared t reports =
      (reports.zipIdx.map fun (r, i) =>
        if (b.clashesAt t reports i r).isEmpty then r
        else { r with
          errors := r.errors ++ (b.clashesAt t reports i r).map Clash.message, cached := false },
        (b.rejectedInputs t reports).foldl b.forget t) := by
  have hchecked : ((b.withOwned t reports).zipIdx.map fun x =>
      (x.1.1, sharedFaults (b.withOwned t reports) x.2 x.1.2)) =
        reports.zipIdx.map fun x => (x.1, (b.clashesAt t reports x.2 x.1).map Clash.message) := by
    rw [withOwned, zipIdx_map, map_map]
    rfl
  rw [withOwned] at hchecked
  simp only [rejectShared]
  rw [hchecked, rejectedInputs]
  simp only [map_map, foldl_map, foldl_filter, Function.comp_def, isEmpty_map,
    Bool.not_eq_true', Bool.eq_false_iff, ne_eq, ite_not]

section Rejecting
variable {i : Nat}

theorem getElem?_rejectShared (hr : reports[i]? = some r) : (b.rejectShared t reports).1[i]? =
    some (if (b.clashesAt t reports i r).isEmpty then r
      else { r with
        errors := r.errors ++ (b.clashesAt t reports i r).map Clash.message
        cached := false }) := by
  simp [rejectShared_eq, hr]

/-- An input that fails because of others has no row after that. -/
theorem row?_rejectShared (hr : reports[i]? = some r) (hne : b.clashesAt t reports i r ≠ []) :
    b.row? (b.rejectShared t reports).2 r.input = none := by
  rw [rejectShared_eq]
  refine row?_foldl_forget (mem_map.2 ⟨(r, i), mem_filter.2 ⟨?_, ?_⟩, rfl⟩) t
  · exact mk_mem_zipIdx_iff_getElem?.2 hr
  · simpa using hne

/-- The row of any other input is not among those that are lost, unless it has the file of one. -/
theorem load_rejectShared (hc : ¬ b.Collides t reports c) :
    b.cache.load (b.rejectShared t reports).2 c = b.cache.load t c := by
  rw [rejectShared_eq]
  refine BuildCache.load_congr ((b.loses_foldl_forget t _).read_eq ?_)
  rintro ⟨input, hinput, d, hd, hkey⟩
  obtain ⟨⟨s, j⟩, hmem, rfl⟩ := mem_map.1 hinput
  obtain ⟨hs, hclash⟩ := mem_filter.1 hmem
  rw [mk_mem_zipIdx_iff_getElem?] at hs
  refine hc ⟨j, s, _, d, hs, clashing_clashesAt hs, by simpa using hclash, hd, ?_⟩
  rw [BuildCache.keyOf_rowPath, BuildCache.keyOf_rowPath] at hkey
  have hname := singleton_inj.1 (append_cancel_left hkey)
  simpa [BuildCache.rowName] using hname.symm

end Rejecting

/-- Each input has one message for every other input that a file of it belongs to, which names the
other one and the least such file, and no other message. An input with such a message does not count
as skipped, and its row is dropped. The report on any other input stays as it is, and so does its
row, unless its canonical path has the fingerprint of one whose row is dropped. -/
theorem rejectShared_clashing (b : Builder) (t : FileTree) (reports : List FileReport) :
    (b.rejectShared t reports).1.length = reports.length ∧
      ∀ i r, reports[i]? = some r → ∃ clashes, b.Clashing t reports i r clashes ∧
        (clashes ≠ [] → (b.rejectShared t reports).1[i]? = some { r with
            errors := r.errors ++ clashes.map fun c =>
              s!"output {c.path.text} is also produced by {c.other.input.text}"
            cached := false } ∧
          b.row? (b.rejectShared t reports).2 r.input = none) ∧
        (clashes = [] → (b.rejectShared t reports).1[i]? = some r ∧
          ∀ c, t.canonical r.input = .ok c → ¬ b.Collides t reports c →
            b.cache.load (b.rejectShared t reports).2 c = b.cache.load t c) := by
  refine ⟨by simp [rejectShared_eq], fun i r hr => ?_⟩
  refine ⟨b.clashesAt t reports i r, clashing_clashesAt hr, fun hne => ?_, fun hnil => ?_⟩
  · refine ⟨?_, row?_rejectShared hr hne⟩
    rw [getElem?_rejectShared hr, if_neg (by simpa using hne)]
    rfl
  · exact ⟨by simp [getElem?_rejectShared hr, hnil], fun c _ => load_rejectShared⟩

def vulkanBuilder : Builder :=
  ⟨{ BuildConfig.standard with targets := [.vulkan], compile := false, incremental := true }, []⟩

/-- The row of `b.fsl`, whose shader has the name of one of `a.fsl`. -/
def skippedRow : CacheRow :=
  ⟨⟨"/w/b.fsl"⟩, [⟨"/w/b.fsl"⟩], "", "", [⟨"out/reflection/T.srt.h"⟩, ⟨"out/vulkan/./one.glsl"⟩]⟩

def sharingTree : FileTree :=
  let sources : FileTree := { cwd := ["w"], nodes := [(["w"], .directory),
    (["w", "a.fsl"], .file [] false), (["w", "b.fsl"], .file [] false)] }
  (vulkanBuilder.cache.record sources skippedRow).toOption.getD sources

/-- `a.fsl` has just been built, and `b.fsl` has been skipped. -/
def sharingReports : List FileReport :=
  [⟨⟨"a.fsl"⟩, false, [], [],
    [⟨.vulkan, .built, [⟨"out/vulkan/two.glsl"⟩, ⟨"out/vulkan/one.glsl"⟩]⟩]⟩,
    ⟨⟨"b.fsl"⟩, true, [], [], []⟩]

/-- The input that has been skipped is found to share a file, is told of it and loses its row. -/
theorem rejectShared_clashing_sharingReports :
    vulkanBuilder.row? sharingTree ⟨"b.fsl"⟩ = some skippedRow ∧
    ∃ clashes, clashes ≠ [] ∧
      vulkanBuilder.Clashing sharingTree sharingReports 1 ⟨⟨"b.fsl"⟩, true, [], [], []⟩ clashes ∧
      (vulkanBuilder.rejectShared sharingTree sharingReports).1[1]? =
        some ⟨⟨"b.fsl"⟩, false, clashes.map fun c =>
          s!"output {c.path.text} is also produced by {c.other.input.text}", [], []⟩ ∧
      vulkanBuilder.row? (vulkanBuilder.rejectShared sharingTree sharingReports).2 ⟨"b.fsl"⟩ =
        none := by
  have hrow : vulkanBuilder.row? sharingTree ⟨"b.fsl"⟩ = some skippedRow := by decide +kernel
  obtain ⟨clashes, hclashing, hne, -⟩ := (rejectShared_clashing vulkanBuilder sharingTree
    sharingReports).2 1 ⟨⟨"b.fsl"⟩, true, [], [], []⟩ rfl
  have hshares : vulkanBuilder.Shares sharingTree ⟨⟨"b.fsl"⟩, true, [], [], []⟩ sharingReports[0]
      ⟨"out/vulkan/one.glsl"⟩ :=
    ⟨⟨⟨"out/vulkan/./one.glsl"⟩, .recorded rfl hrow (by decide) (by decide), by decide⟩,
      ⟨"out/vulkan/one.glsl"⟩, .written rfl mem_cons_self (by decide), by decide⟩
  obtain ⟨c, hc, -⟩ := (hclashing.complete 0 _ rfl).2 ⟨by decide, _, hshares⟩
  have hnonempty := ne_nil_of_mem hc
  exact ⟨hrow, clashes, hnonempty, hclashing, hne hnonempty⟩

/-! Inputs of different paths that have one fingerprint, and so one file for the rows of both. -/

def longChars (x y : Char) : List Char :=
  replicate 29 'a' ++ 'd' :: replicate 3 'a' ++ x :: replicate 59 'a' ++ ['-', 'B', 'W', 'R'] ++
    y :: replicate 140 'a'

def longName (x y : Char) : String := String.ofList (longChars x y)

def keptRow : CacheRow := ⟨pathOf ["w", longName 'c' 'a'], [], "", "", []⟩

def collidingTree : FileTree where
  cwd := ["w"]
  nodes := [(["w"], .directory), (["w", "a.fsl"], .file [] false), (["w", "out"], .directory),
    (["w", "out", ".fslcache"], .directory),
    (["w", "out", ".fslcache", "f9cf7026ffc2672cb740a9e83365dcf9.json"],
      .file (Text.utf8 keptRow.toJson.pretty) false),
    (["w", longName 'a' 'c'], .file [] false), (["w", longName 'c' 'a'], .file [] false)]

/-- The first two inputs have a shader of the same name, and the third one has none. -/
def collidingReports : List FileReport :=
  [⟨⟨longName 'a' 'c'⟩, false, [], [], [⟨.vulkan, .built, [⟨"out/vulkan/one.glsl"⟩]⟩]⟩,
    ⟨⟨"a.fsl"⟩, false, [], [], [⟨.vulkan, .built, [⟨"out/vulkan/one.glsl"⟩]⟩]⟩,
    ⟨⟨longName 'c' 'a'⟩, false, [], [], []⟩]

theorem canonical_longName {x y : Char} (h : (x, y) ∈ [('a', 'c'), ('c', 'a')]) :
    collidingTree.canonical ⟨longName x y⟩ = .ok (pathOf ["w", longName x y]) := by
  have hchars (x y : Char) : (longName x y).toList = longChars x y := String.toList_ofList
  simp only [mem_cons, Prod.mk.injEq, not_mem_nil, or_false] at h
  rcases h with ⟨rfl, rfl⟩ | ⟨rfl, rfl⟩ <;>
    exact canonical_name (by rw [hchars]; decide +kernel) (by decide +kernel) rfl
      (by simp [collidingTree, node?])

/-- The row of an input that shares no file is lost with the row of one that does. -/
theorem rejectShared_collidingReports :
    (collidingReports.map fun r => collidingTree.canonical r.input).Nodup ∧
    (vulkanBuilder.rejectShared collidingTree collidingReports).1[2]? = collidingReports[2]? ∧
    vulkanBuilder.row? collidingTree ⟨longName 'c' 'a'⟩ = some keptRow ∧
    vulkanBuilder.row? (vulkanBuilder.rejectShared collidingTree collidingReports).2
      ⟨longName 'c' 'a'⟩ = none := by
  have hfirst := canonical_longName (x := 'a') (y := 'c') (by decide)
  have hlast := canonical_longName (x := 'c') (y := 'a') (by decide)
  have hname : Fingerprint.ofText (pathOf ["w", longName 'c' 'a']).text =
      "f9cf7026ffc2672cb740a9e83365dcf9" := by decide +kernel
  have hsame : Fingerprint.ofText (pathOf ["w", longName 'a' 'c']).text =
      Fingerprint.ofText (pathOf ["w", longName 'c' 'a']).text := by
    rw [hname]
    decide +kernel
  have hrejected : vulkanBuilder.rejectedInputs collidingTree collidingReports =
      [⟨longName 'a' 'c'⟩, ⟨"a.fsl"⟩] := rfl
  refine ⟨?_, ?_, ?_, ?_⟩
  · have hmiddle : collidingTree.canonical ⟨"a.fsl"⟩ = .ok ⟨"/w/a.fsl"⟩ := by decide +kernel
    have hpaths : [pathOf ["w", longName 'a' 'c'], ⟨"/w/a.fsl"⟩,
        pathOf ["w", longName 'c' 'a']].Nodup := by decide +kernel
    have hcanonical : (collidingReports.map fun r => collidingTree.canonical r.input) =
        [pathOf ["w", longName 'a' 'c'], ⟨"/w/a.fsl"⟩, pathOf ["w", longName 'c' 'a']].map .ok := by
      simp only [collidingReports, map_cons, map_nil, hfirst, hmiddle, hlast]
    rw [hcanonical, Nodup, pairwise_map]
    exact hpaths.imp fun hne heq => hne (Except.ok.inj heq)
  · rw [getElem?_rejectShared rfl]
    rfl
  · have hread : collidingTree.read (vulkanBuilder.cache.rowPath (pathOf ["w", longName 'c' 'a'])) =
        .ok (Text.utf8 keptRow.toJson.pretty) := by
      rw [BuildCache.rowPath, hname]
      rfl
    refine row?_eq_some.2 ⟨_, hlast, ?_⟩
    rw [BuildCache.load, CacheRow.read?_of_read hread]
    simp [keptRow, Path.same_iff]
  · by_contra hne
    obtain ⟨row, hrow⟩ := Option.ne_none_iff_exists'.1 hne
    obtain ⟨c, hc, hload⟩ := row?_eq_some.1 hrow
    simp only [rejectShared_eq, hrejected] at hc hload
    have hbefore := (vulkanBuilder.loses_foldl_forget _ _).canonical_of_canonical hc
    cases hlast.symm.trans hbefore
    cases (load_foldl_forget hfirst hsame _).symm.trans hload

end Builder
end ShaderDialect
