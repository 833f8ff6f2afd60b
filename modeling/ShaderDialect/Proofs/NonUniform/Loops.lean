import Mathlib
import ShaderDialect.Proofs.NonUniform.Calls
import ShaderDialect.Proofs.Success
import ShaderDialect.Glsl.Language

/-! Bodies in which a statement becomes a loop over the array that it indexes: when the loops serve
all indices that differ between invocations. -/
namespace ShaderDialect
open IndexCall List Success

/-- What becomes of a fragment: it is kept for the statement under way, it ends that or the header
of a block, or it is written by itself. -/
inductive Fate
  | keep
  | close
  | brace (loc : Loc)
  | alone

namespace Fragment
variable {f : Fragment} {depth : Nat}

def openAfter (depth : Nat) (f : Fragment) : Nat :=
  match f.token? with
  | some (.delim .lparen) | some (.delim .lbracket) => depth + 1
  | some (.delim .rparen) | some (.delim .rbracket) => depth - 1
  | _ => depth

def fate (depth : Nat) : Fragment → Fate
  | .initMain _ | .ret _ _ => if depth = 0 then .alone else .keep
  | .token ⟨.delim .semicolon, _⟩ => if depth = 0 then .close else .keep
  | .token ⟨.delim .lbrace, loc⟩ | .token ⟨.delim .rbrace, loc⟩ => .brace loc
  | _ => .keep

theorem divides_of_fate {fate : Fate} (h : f.fate depth = fate) (hne : fate ≠ .keep) :
    f.Divides ∧ f.openAfter depth = depth := by
  cases f with
  | token t =>
    obtain ⟨token, loc⟩ := t
    cases token with
    | delim d =>
      cases d with
      | semicolon | lbrace | rbrace => exact ⟨⟨rfl, rfl, rfl⟩, rfl⟩
      | _ => exact absurd h.symm hne
    | _ => exact absurd h.symm hne
  | initMain | ret => exact ⟨⟨rfl, rfl, rfl⟩, rfl⟩
  | call | branch => exact absurd h.symm hne

theorem marker_of_alone (h : f.fate depth = .alone) :
    (∃ loc, f = .initMain loc) ∨ ∃ args loc, f = .ret args loc := by
  unfold fate at h
  split at h
  · exact .inl ⟨_, rfl⟩
  · exact .inr ⟨_, _, rfl⟩
  · split at h <;> cases h
  all_goals cases h

end Fragment

/-- A part of a body that is written by itself. -/
structure Segment where
  source : List Fragment
  /-- A statement may be written as a loop, the header of a block or a marker may not. -/
  isStatement : Bool
  /-- What the brackets that are open at its start index. -/
  brackets : List (Option Operand)

namespace Segment
variable (brackets : List (Option Operand))

/-- A segment starts after a semicolon, a brace or a marker, so nothing is indexed across its
start. -/
def calls (s : Segment) : List IndexCall := IndexCall.inFragments .written ⟨[], s.brackets⟩ s.source

def after (s : Segment) : List (Option Operand) :=
  (s.source.foldl Place.next ⟨[], s.brackets⟩).brackets

/-- The access that makes the segment a loop. -/
def access? (s : Segment) : Option NonUniformAccess :=
  if s.isStatement then s.calls.findSome? IndexCall.access? else none

/-- The segments of a body, given the brackets that are open, how many of them count against the end
of a statement, and the fragments of the segment under way, the last one first. -/
def split (brackets : List (Option Operand)) (depth : Nat) (held : List Fragment) :
    List Fragment → List Segment
  | [] => [⟨held.reverse, true, brackets⟩]
  | f :: fs =>
    let kept := f :: held
    match f with
    | .initMain _ | .ret _ _ =>
      if depth ≠ 0 then split brackets depth kept fs
      else
        let s : Segment := ⟨held.reverse, true, brackets⟩
        s :: ⟨[f], false, s.after⟩ :: split s.after depth [] fs
    | .token ⟨.delim d, _⟩ =>
      match d with
      | .lparen | .lbracket => split brackets (depth + 1) kept fs
      | .rparen | .rbracket => split brackets (depth - 1) kept fs
      | .semicolon =>
        if depth = 0 then
          let s : Segment := ⟨kept.reverse, true, brackets⟩
          s :: split s.after depth [] fs
        else split brackets depth kept fs
      | .lbrace | .rbrace =>
        let s : Segment := ⟨kept.reverse, false, brackets⟩
        s :: split s.after depth [] fs
      | _ => split brackets depth kept fs
    | _ => split brackets depth kept fs

def ofBody (fs : List Fragment) : List Segment := split [] 0 [] fs

/-- The segments that are left after a fragment. -/
def follow (brackets : List (Option Operand)) (depth : Nat) (held : List Fragment) (f : Fragment)
    (fs : List Fragment) : Fate → List Segment
  | .keep => split brackets (f.openAfter depth) (f :: held) fs
  | .close =>
    let s : Segment := ⟨(f :: held).reverse, true, brackets⟩
    s :: split s.after depth [] fs
  | .brace _ =>
    let s : Segment := ⟨(f :: held).reverse, false, brackets⟩
    s :: split s.after depth [] fs
  | .alone =>
    let s : Segment := ⟨held.reverse, true, brackets⟩
    s :: ⟨[f], false, s.after⟩ :: split s.after depth [] fs

variable (depth : Nat)

theorem split_cons (held : List Fragment) (f : Fragment) (fs : List Fragment) :
    split brackets depth held (f :: fs) = follow brackets depth held f fs (f.fate depth) := by
  cases f with
  | token t =>
    obtain ⟨token, loc⟩ := t
    cases token with
    | delim d =>
      cases d with
      | semicolon =>
        by_cases hd : depth = 0 <;>
          simp [split, Fragment.fate, hd, follow, Fragment.openAfter, Fragment.token?]
      | _ => rfl
    | _ => rfl
  | call | branch => rfl
  | initMain | ret =>
    by_cases hd : depth = 0 <;>
      simp [split, Fragment.fate, hd, follow, Fragment.openAfter, Fragment.token?]

theorem flatMap_source_split (held fs : List Fragment) :
    (split brackets depth held fs).flatMap source = held.reverse ++ fs := by
  induction fs generalizing brackets depth held with
  | nil => simp [split]
  | cons f fs ih =>
    rw [split_cons]
    cases f.fate depth <;> simp [follow, ih]

variable {f : Fragment}

theorem inFragments_divides (hf : f.Divides) (p : Place) (fs : List Fragment) :
    inFragments .written p (f :: fs) =
      inFragments .written p [f] ++
        inFragments .written ⟨[], (p.next f).brackets⟩ fs := by
  simp only [inFragments, append_nil]
  rw [inFragments_alike (.of_divides hf p) fs]

theorem calls_of_alone {depth : Nat} (h : f.fate depth = .alone) (p : Place) :
    (p.next f).brackets = p.brackets ∧
      inFragments .written p [f] = inFragments .written ⟨[], p.brackets⟩ [f] := by
  obtain ⟨loc, rfl⟩ | ⟨args, loc, rfl⟩ := Fragment.marker_of_alone h
  · exact ⟨rfl, by simp [inFragments, inFragment]⟩
  · exact ⟨rfl, by cases args <;> simp [inFragments, inFragment]⟩

/-- The calls of a body are those of its segments. -/
theorem flatMap_calls_split (held fs : List Fragment) :
    (split brackets depth held fs).flatMap calls =
      inFragments .written ⟨[], brackets⟩ (held.reverse ++ fs) := by
  induction fs generalizing brackets depth held with
  | nil => simp [split, calls]
  | cons f fs ih =>
    rw [split_cons]
    cases hf : f.fate depth with
    | keep => simp [follow, ih]
    | close | brace =>
      rw [inFragments_append, inFragments_divides (Fragment.divides_of_fate hf nofun).1]
      simp [follow, ih, calls, after, inFragments_append]
    | alone =>
      rw [inFragments_append, inFragments_divides (Fragment.divides_of_fate hf nofun).1,
        (calls_of_alone hf _).2, (calls_of_alone hf _).1]
      simp [follow, ih, calls, after]

end Segment

structure Loop where
  number : Nat
  access : NonUniformAccess

def Loop.index (l : Loop) : String := s!"_nu{l.number}"

structure Block where
  segment : Segment
  loop : Option Loop

namespace Block

def ofSegment (loops : Nat) (s : Segment) : Block := ⟨s, s.access?.map (Loop.mk loops)⟩

/-- The blocks of segments, given how many loops are before them. -/
def number (loops : Nat) : List Segment → List Block
  | [] => []
  | s :: ss => ofSegment loops s :: number (loops + s.access?.toList.length) ss

def ofBody (fs : List Fragment) : List Block := number 0 (Segment.ofBody fs)

end Block

namespace Writer
variable {n : Nat} {s : Segment} {pieces : List Piece} {p q : Progress} {w : Writer}

/-- The declaration that is taken out of a statement, and what is left of it. -/
inductive Hoists (w : Writer) : List Fragment → List Piece → List Fragment → Prop
  | declaration {first : Fragment} {rest : List Fragment} {name type : String}
      (hname : w.declared? (first :: rest) = some name)
      (htype : w.expression none [first] = .ok type) :
      Hoists w (first :: rest) [.line s!"{type} {name};"] rest
  | nothing {source : List Fragment} (hname : w.declared? source = none) :
      Hoists w source [] source

/-- What is written for a block. In the text of a loop, its index stands for every call that is
written. -/
def Writes (w : Writer) (b : Block) (pieces : List Piece) : Prop :=
  match b.loop with
  | none => w.pieces none b.segment.source = .ok pieces
  | some l => ∃ frequency r guard declaration rest text,
      w.unit.resource? l.access.resource = some (frequency, r) ∧
      w.expression none l.access.index = .ok guard ∧
      w.Hoists b.segment.source declaration rest ∧
      w.expression (some l.index) rest = .ok text ∧
      pieces = declaration ++
        [.line s!"for (uint {l.index} = 0u; {l.index} < {r.length}u; ++{l.index})", .delim .lbrace,
          .line s!"if ({l.index} == uint({guard}))", .delim .lbrace, .line text, .delim .rbrace,
          .delim .rbrace]

inductive WritesAll (w : Writer) : List Block → List Piece → Prop
  | nil : WritesAll w [] []
  | cons {b bs pieces more} (hb : w.Writes b pieces) (hbs : WritesAll w bs more) :
      WritesAll w (b :: bs) (pieces ++ more)

theorem writes_of_scan {a : NonUniformAccess} (h : w.scan n a s.source = .ok pieces) :
    w.Writes ⟨s, some ⟨n, a⟩⟩ pieces := by
  unfold scan at h
  split at h
  · rename_i frequency r hr
    simp only [bind_eq_ok] at h
    obtain ⟨guard, hguard, h⟩ := h
    cases hname : w.declared? s.source with
    | none =>
      simp only [hname, bind_eq_ok, pure_eq_ok] at h
      obtain ⟨_, rfl, text, htext, rfl⟩ := h
      exact ⟨frequency, r, guard, [], s.source, text, hr, hguard, .nothing hname, htext, rfl⟩
    | some name =>
      obtain ⟨_ | ⟨first, rest⟩, statement, brackets⟩ := s
      · simp [declared?] at hname
      · simp only [hname, bind_eq_ok, pure_eq_ok] at h
        obtain ⟨type, htype, _, rfl, text, htext, rfl⟩ := h
        exact ⟨frequency, r, guard, _, rest, text, hr, hguard, .declaration hname htype, htext, rfl⟩
  · simp at h

theorem access?_statement (source : List Fragment) (brackets : List (Option Operand)) :
    Segment.access? ⟨source, true, brackets⟩ = NonUniformAccess.first? source := by
  simp [Segment.access?, Segment.calls, findSome?_inFragments, NonUniformAccess.first?]

theorem endStatement_writes (h : w.endStatement p = .ok q) (brackets : List (Option Operand)) :
    let s : Segment := ⟨p.statement.reverse, true, brackets⟩
    ∃ pieces, w.Writes (.ofSegment p.loops s) pieces ∧
      q = ⟨p.pieces ++ pieces, [], p.depth, p.loops + s.access?.toList.length⟩ := by
  intro s
  have hs : s.access? = NonUniformAccess.first? p.statement.reverse := access?_statement _ _
  unfold endStatement at h
  cases ha : NonUniformAccess.first? p.statement.reverse with
  | none =>
    simp only [ha, bind_eq_ok, pure_eq_ok] at h
    obtain ⟨pieces, hpieces, rfl⟩ := h
    refine ⟨pieces, ?_, by simp [hs, ha]⟩
    simpa [Writes, Block.ofSegment, hs, ha] using hpieces
  | some a =>
    simp only [ha, bind_eq_ok, pure_eq_ok] at h
    obtain ⟨pieces, hpieces, rfl⟩ := h
    refine ⟨pieces, ?_, by simp [hs, ha]⟩
    rw [Block.ofSegment, hs, ha]
    exact writes_of_scan hpieces

theorem writes_plain {source : List Fragment} {brackets : List (Option Operand)}
    (h : w.pieces none source = .ok pieces) :
    w.Writes (.ofSegment n ⟨source, false, brackets⟩) pieces := by
  simpa [Writes, Block.ofSegment, Segment.access?] using h

theorem endHeader_writes {loc : Loc} {brace : Fragment} (h : w.endHeader loc p brace = .ok q)
    (brackets : List (Option Operand)) :
    ∃ pieces, w.Writes (.ofSegment p.loops ⟨(brace :: p.statement).reverse, false, brackets⟩)
        pieces ∧
      q = ⟨p.pieces ++ pieces, [], p.depth, p.loops⟩ := by
  simp only [endHeader] at h
  split at h
  · simp at h
  · simp only [bind_eq_ok, pure_eq_ok] at h
    obtain ⟨pieces, hpieces, rfl⟩ := h
    exact ⟨pieces, writes_plain (by simpa using hpieces), rfl⟩

/-- What a fragment does to the progress. -/
def follow (w : Writer) (p : Progress) (f : Fragment) : Fate → Except Failure Progress
  | .keep => .ok ⟨p.pieces, f :: p.statement, f.openAfter p.depth, p.loops⟩
  | .close => w.endStatement { p with statement := f :: p.statement }
  | .brace loc => w.endHeader loc p f
  | .alone => do
    let p ← w.endStatement p
    let pieces ← w.pieces none [f]
    return { p with pieces := p.pieces ++ pieces }

theorem step_eq (p : Progress) (f : Fragment) : w.step p f = w.follow p f (f.fate p.depth) := by
  cases f with
  | token t =>
    obtain ⟨token, loc⟩ := t
    cases token with
    | delim d =>
      cases d with
      | semicolon =>
        by_cases hd : p.depth = 0 <;>
          simp [step, Fragment.fate, hd, follow, Fragment.openAfter, Fragment.token?]
      | _ => rfl
    | _ => rfl
  | call | branch => rfl
  | initMain | ret =>
    by_cases hd : p.depth = 0 <;>
      simp [step, marker, Fragment.fate, hd, follow, Fragment.openAfter, Fragment.token?]

/-- What a step leaves: the fragment is kept, or it ends a segment, or, as a marker, it ends one and
is written by itself. -/
theorem step_cases {p₁ : Progress} {f : Fragment} (h : w.step p f = .ok p₁)
    (brackets : List (Option Operand)) (fs : List Fragment) :
    (p₁ = ⟨p.pieces, f :: p.statement, f.openAfter p.depth, p.loops⟩ ∧
      Segment.split brackets p.depth p.statement (f :: fs) =
        Segment.split brackets (f.openAfter p.depth) (f :: p.statement) fs) ∨
    f.Divides ∧ f.openAfter p.depth = p.depth ∧
      ∃ (s : Segment) (pieces : List Piece), w.Writes (.ofSegment p.loops s) pieces ∧
      ((p₁ = ⟨p.pieces ++ pieces, [], p.depth, p.loops + s.access?.toList.length⟩ ∧
        Segment.split brackets p.depth p.statement (f :: fs) =
          s :: Segment.split s.after p.depth [] fs) ∨
      ∃ more, w.pieces none [f] = .ok more ∧
        p₁ = ⟨p.pieces ++ pieces ++ more, [], p.depth, p.loops + s.access?.toList.length⟩ ∧
        Segment.split brackets p.depth p.statement (f :: fs) =
          s :: ⟨[f], false, s.after⟩ :: Segment.split s.after p.depth [] fs) := by
  rw [step_eq] at h
  rw [Segment.split_cons]
  cases hf : f.fate p.depth with
  | keep =>
    rw [hf] at h
    cases h
    exact .inl ⟨rfl, rfl⟩
  | close =>
    rw [hf] at h
    obtain ⟨hdivides, hdepth⟩ := Fragment.divides_of_fate hf (by simp)
    obtain ⟨pieces, hw, rfl⟩ := endStatement_writes h brackets
    exact .inr ⟨hdivides, hdepth, _, pieces, hw, .inl ⟨rfl, rfl⟩⟩
  | brace loc =>
    rw [hf] at h
    obtain ⟨hdivides, hdepth⟩ := Fragment.divides_of_fate hf (by simp)
    obtain ⟨pieces, hw, rfl⟩ := endHeader_writes h brackets
    exact .inr ⟨hdivides, hdepth, _, pieces, hw, .inl ⟨rfl, rfl⟩⟩
  | alone =>
    rw [hf] at h
    simp only [follow, bind_eq_ok, pure_eq_ok] at h
    obtain ⟨q, hq, more, hmore, rfl⟩ := h
    obtain ⟨hdivides, hdepth⟩ := Fragment.divides_of_fate hf (by simp)
    obtain ⟨pieces, hw, rfl⟩ := endStatement_writes hq brackets
    exact .inr ⟨hdivides, hdepth, _, pieces, hw, .inr ⟨more, hmore, rfl, rfl⟩⟩

/-- What is written after some progress are the blocks of the fragments that are left. -/
theorem foldlM_step_writes {fs : List Fragment} {p' : Progress} (h : fs.foldlM (step w) p = .ok p')
    (hend : w.endStatement p' = .ok q) (brackets : List (Option Operand)) :
    ∃ pieces, q.pieces = p.pieces ++ pieces ∧
      w.WritesAll (Block.number p.loops (Segment.split brackets p.depth p.statement fs))
        pieces := by
  induction fs generalizing p brackets with
  | nil =>
    obtain rfl : p = p' := by simpa using h
    obtain ⟨pieces, hw, rfl⟩ := endStatement_writes hend brackets
    exact ⟨pieces ++ [], by simp, .cons hw .nil⟩
  | cons f fs ih =>
    simp only [foldlM_cons, bind_eq_ok] at h
    obtain ⟨p₁, hstep, hrest⟩ := h
    obtain ⟨rfl, hsplit⟩ | ⟨-, -, s, pieces, hw, ⟨rfl, hsplit⟩ | ⟨own, hf, rfl, hsplit⟩⟩ :=
      step_cases hstep brackets fs
    · rw [hsplit]
      exact ih hrest brackets
    · obtain ⟨more, hq, hmore⟩ := ih hrest s.after
      rw [hsplit]
      exact ⟨pieces ++ more, by simp [hq], .cons hw hmore⟩
    · obtain ⟨more, hq, hmore⟩ := ih hrest s.after
      rw [hsplit]
      exact ⟨pieces ++ (own ++ more), by simp [hq], .cons hw (.cons (writes_plain hf) hmore)⟩

end Writer

/-- A call is in the brackets of a resource. -/
def IndexCall.Indexes (w : Writer) (c : IndexCall) (resource : String) : Prop :=
  c.array = some (.name resource) ∧ (w.unit.resource? resource).isSome

/-- The index of a loop is compared with the argument of a call. -/
def Loop.Guards (w : Writer) (l : Loop) (c : IndexCall) : Prop :=
  ∃ text, w.expression none l.access.index = .ok text ∧ w.arguments none c.args = .ok [text]

/-- A call that indexes a resource is written in a loop over that resource, whose index is compared
with the argument of the call. The index of a loop stands for no other calls than those, and for
calls with that argument that index nothing. -/
def Block.Serves (w : Writer) (b : Block) (c : IndexCall) : Prop :=
  (∀ r, c.Indexes w r →
    c.use = .written ∧ ∃ l, b.loop = some l ∧ l.access.resource = r ∧ l.Guards w c) ∧
  (c.use = .written → ∀ l, b.loop = some l →
    l.Guards w c ∧ (c.array = none ∨ c.array = some (.name l.access.resource)))

/-- All calls that are written have the argument of the access that makes the segment a loop, and
index the same resource or nothing. No other call indexes a resource. -/
def Segment.Uniform (w : Writer) (s : Segment) : Prop :=
  match s.access? with
  | some a => ∀ c ∈ s.calls,
      (c.use = .written → w.arguments none c.args = w.arguments none [a.index] ∧
        (c.array = none ∨ c.array = some (.name a.resource))) ∧
      (c.use ≠ .written → ∀ r, ¬ c.Indexes w r)
  | none => ∀ c ∈ s.calls, ∀ r, ¬ c.Indexes w r

namespace Writer
variable {n : Nat} {s : Segment} {pieces : List Piece} {w : Writer}

theorem guards_iff {l : Loop} {c : IndexCall} {text : String}
    (h : w.expression none l.access.index = .ok text) :
    l.Guards w c ↔ w.arguments none c.args = w.arguments none [l.access.index] := by
  have hindex : w.arguments none [l.access.index] = .ok [text] := by
    simp only [expression, pieces, map_eq_ok] at h
    obtain ⟨pieces, hpieces, rfl⟩ := h
    simp [arguments, hpieces, bind, Except.bind, pure, Except.pure]
  rw [hindex]
  constructor
  · rintro ⟨t, ht, hc⟩
    rw [h] at ht
    cases ht
    exact hc
  · intro hc
    exact ⟨text, h, hc⟩

/-- A block that is written serves its calls exactly if its segment is uniform. -/
theorem serves_iff_uniform (h : w.Writes (.ofSegment n s) pieces) :
    (∀ c ∈ s.calls, (Block.ofSegment n s).Serves w c) ↔ s.Uniform w := by
  cases ha : s.access? with
  | none => simp [Block.Serves, Block.ofSegment, Segment.Uniform, ha]
  | some a =>
    rw [Block.ofSegment, ha] at h ⊢
    obtain ⟨_, _, guard, _, _, _, _, hguard, -⟩ := h
    simp only [Segment.Uniform, ha]
    refine forall₂_congr fun c _ => ?_
    have hg : (Loop.mk n a).Guards w c ↔ _ := guards_iff hguard
    constructor
    · rintro ⟨hindexes, hloop⟩
      refine ⟨fun hw => ?_, fun hw r hr => hw (hindexes r hr).1⟩
      obtain ⟨hguards, harray⟩ := hloop hw _ rfl
      exact ⟨hg.1 hguards, harray⟩
    · rintro ⟨hwritten, hother⟩
      refine ⟨fun r hr => ?_, fun hw l hl => ?_⟩
      · have hw : c.use = .written := Decidable.byContradiction fun hw => hother hw r hr
        obtain ⟨hargs, harray⟩ := hwritten hw
        have hname : a.resource = r := by
          rcases harray with harray | harray
          · simp [hr.1] at harray
          · simpa [hr.1, eq_comm] using harray
        exact ⟨hw, ⟨n, a⟩, rfl, hname, hg.2 hargs⟩
      · obtain ⟨hargs, harray⟩ := hwritten hw
        cases hl
        exact ⟨hg.2 hargs, harray⟩

theorem writesAll_serves_iff {ss : List Segment} (h : w.WritesAll (Block.number n ss) pieces) :
    (∀ b ∈ Block.number n ss, ∀ c ∈ b.segment.calls, b.Serves w c) ↔ ∀ s ∈ ss, s.Uniform w := by
  induction ss generalizing n pieces with
  | nil => simp [Block.number]
  | cons s ss ih =>
    cases h with
    | cons hb hbs =>
      rw [Block.number, forall_mem_cons, forall_mem_cons, ih hbs]
      exact and_congr_left fun _ => serves_iff_uniform hb

theorem segment_number (n : Nat) (ss : List Segment) :
    (Block.number n ss).map Block.segment = ss := by
  induction ss generalizing n with
  | nil => rfl
  | cons s ss ih => rw [Block.number, map_cons, ih]; rfl

/-- A body in a language without indices that differ between invocations is written as blocks that
hold all of its fragments and calls. They serve all calls exactly if every segment is uniform. -/
theorem body_serves_iff (w : Writer) {fs : List Fragment} {lines : List String}
    (hscan : w.language.nonUniform = .scan) (h : w.body fs = .ok lines) :
    (Segment.ofBody fs).flatMap Segment.source = fs ∧
    (Segment.ofBody fs).flatMap Segment.calls = IndexCall.inFragments .written ⟨[], []⟩ fs ∧
    (Block.ofBody fs).map Block.segment = Segment.ofBody fs ∧
    (∃ pieces, w.WritesAll (Block.ofBody fs) pieces ∧ lines = Layout.lines 1 pieces) ∧
    ((∀ b ∈ Block.ofBody fs, ∀ c ∈ b.segment.calls, b.Serves w c) ↔
      ∀ s ∈ Segment.ofBody fs, s.Uniform w) := by
  simp only [body, statements, hscan, map_eq_ok, bind_eq_ok,
    pure_eq_ok] at h
  obtain ⟨_, ⟨p, hp, q, hq, rfl⟩, rfl⟩ := h
  obtain ⟨pieces, hpieces, hw⟩ := foldlM_step_writes hp hq []
  refine ⟨Segment.flatMap_source_split [] 0 [] fs, Segment.flatMap_calls_split [] 0 [] fs,
    segment_number 0 _, ⟨pieces, hw, ?_⟩, writesAll_serves_iff hw⟩
  rw [hpieces]
  rfl

/-- A writer of a helper whose unit has an array of four textures. -/
def writerOverTextures : Writer where
  language := Glsl.language false
  unit :=
    { name := "lit", stage := .pixel, features := .empty, target := .vulkan, structs := [],
      globals := [], helpers := [], entry := ⟨⟨"main", .void, [], [], ⟨"lit.fsl", 1⟩⟩, [], []⟩,
      interface := default, threads := none, compared := [],
      table := some ⟨"T", [⟨.perFrame, none, [⟨"maps", .texture .tex2D .void, 0, 4⟩], 4⟩]⟩ }
  role := .helper

def textureIndex (name : String) : Fragment := .token ⟨.word name, ⟨"lit.fsl", 2⟩⟩

/-- The statement `x = maps[NonUniformResourceIndex(i)] + …;`, with a term for each index. -/
def sumOf (indices : List String) : List Fragment :=
  let loc : Loc := ⟨"lit.fsl", 2⟩
  let token (t : Token) : Fragment := .token ⟨t, loc⟩
  let term (index : String) : List Fragment :=
    [token (.word "maps"), token (.delim .lbracket),
      .call nonUniformCall [[textureIndex index]] loc, token (.delim .rbracket)]
  [token (.word "x"), token (.op "=")] ++ [token (.op "+")].intercalate (indices.map term) ++
    [token (.delim .semicolon)]

/-- The lines of `sumOf`, in a loop that asks for the first index. -/
def linesOf (sum : String) : List String :=
  ["    for (uint _nu0 = 0u; _nu0 < 4u; ++_nu0)", "    \x7b", "        if (_nu0 == uint(i))",
    "        \x7b", "            x = " ++ sum ++ ";", "        \x7d", "    \x7d"]

/-- One index is served, two different ones in a statement are not. -/
theorem body_serves_iff_sumOf :
    (writerOverTextures.body (sumOf ["i"]) = .ok (linesOf "maps[_nu0]") ∧
      ∀ b ∈ Block.ofBody (sumOf ["i"]), ∀ c ∈ b.segment.calls, b.Serves writerOverTextures c) ∧
    (writerOverTextures.body (sumOf ["i", "j"]) = .ok (linesOf "maps[_nu0] + maps[_nu0]") ∧
      ¬ ∀ b ∈ Block.ofBody (sumOf ["i", "j"]), ∀ c ∈ b.segment.calls,
        b.Serves writerOverTextures c) := by
  have hscan : writerOverTextures.language.nonUniform = .scan := rfl
  have hone : writerOverTextures.body (sumOf ["i"]) = .ok (linesOf "maps[_nu0]") := by cbv
  have htwo : writerOverTextures.body (sumOf ["i", "j"]) =
      .ok (linesOf "maps[_nu0] + maps[_nu0]") := by cbv
  obtain ⟨-, -, -, -, hone_iff⟩ := body_serves_iff writerOverTextures hscan hone
  obtain ⟨-, -, -, -, htwo_iff⟩ := body_serves_iff writerOverTextures hscan htwo
  refine ⟨⟨hone, hone_iff.2 fun s hs => ?_⟩, ⟨htwo, fun h => ?_⟩⟩
  · have hsegments : Segment.ofBody (sumOf ["i"]) = [⟨sumOf ["i"], true, []⟩, ⟨[], true, []⟩] := rfl
    rw [hsegments] at hs
    simp only [mem_cons, not_mem_nil, or_false] at hs
    rcases hs with rfl | rfl
    · intro c hc
      obtain rfl := mem_singleton.1 hc
      exact ⟨fun _ => ⟨rfl, .inr rfl⟩, fun hw => absurd rfl hw⟩
    · intro c hc
      cases hc
  · have huniform := htwo_iff.1 h ⟨sumOf ["i", "j"], true, []⟩ (.head _)
    have hargs := (huniform ⟨.written, some (.name "maps"), some "maps", [[textureIndex "j"]],
      ⟨"lit.fsl", 2⟩⟩ (.tail _ (.head _))).1 rfl
    have hi : writerOverTextures.arguments none [[textureIndex "i"]] = .ok ["i"] := by cbv
    have hj : writerOverTextures.arguments none [[textureIndex "j"]] = .ok ["j"] := by cbv
    have heq := hj.symm.trans (hargs.1.trans hi)
    simp at heq

end Writer
end ShaderDialect
