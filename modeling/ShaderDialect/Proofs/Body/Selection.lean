import Mathlib
import ShaderDialect.Proofs.Body.Reading
import ShaderDialect.Proofs.Directive

/-! Selection of fragments and directives agree. Fragments are written out as tokens again, and
those that remain of a body are written out as the tokens that remain when its directives are
decided. -/
namespace ShaderDialect.Fragment

/-- A token of a fragment that is written out, or a place where one semicolon may stand. -/
inductive Mark
  | token (t : Token)
  | end?
  deriving DecidableEq

mutual
/-- A fragment without branches, written out. Of the semicolon after `RETURN` no trace is kept. -/
def marks : Fragment → List Mark
  | token t => [.token t.token]
  | call name args _ =>
    .token (.word name) :: .token (.delim .lparen) :: (marksArgs args ++ [.token (.delim .rparen)])
  | branch .. => []
  | initMain _ => [.token (.word "INIT_MAIN"), .token (.delim .semicolon)]
  | ret args _ =>
    .token (.word "RETURN") :: .token (.delim .lparen) ::
      (marksArgs args ++ [.token (.delim .rparen), .end?])

def marksList : List Fragment → List Mark
  | [] => []
  | f :: fs => f.marks ++ marksList fs

def marksArgs : List (List Fragment) → List Mark
  | [] => []
  | arg :: args => marksList arg ++ marksMore args

/-- Arguments that follow another one. -/
def marksMore : List (List Fragment) → List Mark
  | [] => []
  | arg :: args => .token (.delim .comma) :: (marksList arg ++ marksMore args)
end

/-- The tokens are the marked ones, in order and without gaps. -/
inductive Spells : List Mark → List Token → Prop
  | nil : Spells [] []
  | token {ms : List Mark} {ts : List Token} (t : Token) :
      Spells ms ts → Spells (.token t :: ms) (t :: ts)
  | noEnd {ms : List Mark} {ts : List Token} : Spells ms ts → Spells (.end? :: ms) ts
  | end_ {ms : List Mark} {ts : List Token} :
      Spells ms ts → Spells (.end? :: ms) (.delim .semicolon :: ts)

theorem Spells.append {ms ns : List Mark} {ts us : List Token} (h : Spells ms ts)
    (h' : Spells ns us) : Spells (ms ++ ns) (ts ++ us) := by
  induction h with
  | nil => exact h'
  | token t _ ih => exact .token t ih
  | noEnd _ ih => exact .noEnd ih
  | end_ _ ih => exact .end_ ih

theorem Spells.single (t : Token) : Spells [.token t] [t] := .token t .nil

theorem marksList_append (fs gs : List Fragment) :
    marksList (fs ++ gs) = marksList fs ++ marksList gs := by
  induction fs with
  | nil => rfl
  | cons f fs ih => simp [marksList, ih]

end ShaderDialect.Fragment

namespace ShaderDialect.Reader
open Directive Fragment

variable {defined : String → Bool} {fuel : Nat} {c c₁ c' : Cursor}

/-- Between two cursors stand tokens that contribute the marked ones. -/
def Spans (defined : String → Bool) (c c' : Cursor) (ms : List Mark) : Prop :=
  Takes defined c c' fun kept => Spells ms (kept.map Placed.token)

theorem spans_nil : Spans defined c c [] := takes_nothing .nil

variable {loc : Loc} {ts : List Placed}

theorem spans_token {token : Token} (hrest : c.rest = ⟨token, loc⟩ :: ts)
    (ht : conditional? token = none) : Spans defined c { c with rest := ts } [.token token] :=
  takes_token hrest ht (.single token)

theorem Spans.append {ms ns : List Mark} (h : Spans defined c c₁ ms) (h' : Spans defined c₁ c' ns) :
    Spans defined c c' (ms ++ ns) := by
  refine Takes.append h h' ?_
  intro kept kept' hms hns
  rw [List.map_append]
  exact hms.append hns

theorem spans_eat {u : Unit} (h : Reads (eat .semicolon) c u c') : Spans defined c c' [.end?] := by
  rcases reads_eat.1 h with ⟨loc, ts, hrest, rfl⟩ | ⟨-, rfl⟩
  · exact takes_token hrest rfl (.end_ .nil)
  · exact takes_nothing (.noEnd .nil)

/-- Reading fragments takes tokens that contribute what remains of the fragments. -/
def FragmentsSpan (defined : String → Bool) (fuel : Nat) : Prop :=
  ∀ {term : Terminator} {depth : Nat} {c c' : Cursor} {fs : List Fragment} {stop : Stop},
    Reads (fragments fuel term depth) c (fs, stop) c' →
      Spans defined c c' (marksList (selectList defined fs))

/-- Reading arguments takes what remains of them and the closing parenthesis. Only a first argument
may be missing. -/
def ArgumentsSpan (defined : String → Bool) (fuel : Nat) : Prop :=
  ∀ {loc close : Loc} {first : Bool} {c c' : Cursor} {args : List (List Fragment)},
    Reads (arguments fuel loc first) c (args, close) c' →
      (args = [] → first = true) ∧
        Spans defined c c' (marksArgs (selectArgs defined args) ++ [.token (.delim .rparen)])

theorem FragmentsSpan.branch (hf : FragmentsSpan defined fuel) {term : Terminator} {s s' : Unit}
    {fs : List Fragment} (h : Reads (bodyBranch fuel term s) c (fs, s') c') :
    Spans defined c c' (marksList (selectList defined fs)) := by
  simp only [bodyBranch, reads_bind, reads_pure, Prod.mk.injEq] at h
  obtain ⟨⟨fs', stop⟩, _, hread, ⟨rfl, -⟩, rfl⟩ := h
  exact hf hread

theorem spells_branch {cond : Condition} {yes no : List Fragment} {kept kept' : List Placed}
    (hyes : Spells (marksList (selectList defined yes)) (kept.map Placed.token))
    (hno : Spells (marksList (selectList defined no)) (kept'.map Placed.token)) :
    Spells (marksList (selectList defined [.branch cond yes no loc]))
      ((if cond.eval defined then kept else kept').map Placed.token) := by
  by_cases hv : cond.eval defined
  · simpa [selectList, select, hv] using hyes
  · simpa [selectList, select, hv] using hno

theorem ArgumentsSpan.call (ha : ArgumentsSpan defined fuel) {name : String} {loc' at_ close : Loc}
    {args : List (List Fragment)}
    (hrest : c.rest = ⟨.word name, loc⟩ :: ⟨.delim .lparen, loc'⟩ :: ts)
    (h : Reads (arguments fuel at_ true) { c with rest := ts } (args, close) c') :
    Spans defined c c' (.token (.word name) :: .token (.delim .lparen) ::
      (marksArgs (selectArgs defined args) ++ [.token (.delim .rparen)])) := by
  have hopen : Spans defined { c with rest := ⟨.delim .lparen, loc'⟩ :: ts } { c with rest := ts }
      [.token (.delim .lparen)] := spans_token rfl rfl
  exact (spans_token hrest rfl).append (hopen.append (ha h).2)

theorem conditional?_eq_none {depth depth' : Nat} {t : Token}
    (h : bracketsAfter? depth t = some depth') : conditional? t = none := by
  cases t <;> simp_all [bracketsAfter?, conditional?]

theorem fragmentsSpan_succ (hf : FragmentsSpan defined fuel) (ha : ArgumentsSpan defined fuel) :
    FragmentsSpan defined (fuel + 1) := by
  intro term depth c c' fs stop h
  cases fragments_step h with
  | endOfInput | terminator | branchEnd => exact spans_nil
  | conditional hrest hopens hcond hmore =>
    have hbranch := hcond.takes
      (fun fs kept => Spells (marksList (selectList defined fs)) (kept.map Placed.token))
      hrest hopens (fun _ => hf.branch) .nil spells_branch
    have happend := Spans.append hbranch (hf hmore)
    simpa [selectList, marksList_append] using happend
  | @initMain loc loc' ts fs stop _ hrest hmore =>
    have hend : Spans defined { c with rest := ⟨.delim .semicolon, loc'⟩ :: ts }
        { c with rest := ts } [.token (.delim .semicolon)] := spans_token rfl rfl
    exact (spans_token hrest rfl).append (hend.append (hf hmore))
  | ret hrest hargs heat hmore =>
    have happend := ((ha.call hrest hargs).append (spans_eat heat)).append (hf hmore)
    simpa [selectList, select, marksList, marks] using happend
  | call hrest hargs hmore =>
    have happend := (ha.call hrest hargs).append (hf hmore)
    simpa [selectList, select, marksList, marks] using happend
  | token hrest hdepth hmore =>
    exact Spans.append (spans_token hrest (conditional?_eq_none hdepth)) (hf hmore)

theorem argumentsSpan_succ (hf : FragmentsSpan defined fuel) (ha : ArgumentsSpan defined fuel) :
    ArgumentsSpan defined (fuel + 1) := by
  intro loc close first c c' args h
  obtain ⟨arg, c₁, t, ts, harg, hrest, hend⟩ := arguments_step h
  rcases hend with ⟨rfl, rfl, hargs⟩ | ⟨hclose, hempty, args', rfl, hmore⟩
  · have hspan := hf harg
    have hparen := hspan.append (spans_token hrest rfl)
    rcases hargs with ⟨rfl, hfirst, rfl⟩ | ⟨hempty, rfl⟩
    · exact ⟨fun _ => hfirst, hparen⟩
    · refine ⟨by simp, ?_⟩
      simpa [selectArgs, marksArgs, marksMore] using hparen
  · obtain ⟨hnonempty, hspan⟩ := ha hmore
    obtain ⟨t', _, hrest', hends⟩ := ends_of_fragments harg
    obtain ⟨token, loc⟩ := t
    cases hrest.symm.trans hrest'
    have hcomma : token = .delim .comma := by
      cases token with
      | delim d => cases d <;> simp_all [Terminator.ends]
      | _ => simp [Terminator.ends] at hends
    subst hcomma
    have hcomma := (hf harg).append (spans_token hrest rfl)
    have happend := hcomma.append hspan
    refine ⟨by simp, ?_⟩
    cases args' with
    | nil => simp at hnonempty
    | cons arg' args' => simpa [selectArgs, marksArgs, marksMore] using happend

theorem fragmentsSpan_and_argumentsSpan (defined : String → Bool) (fuel : Nat) :
    FragmentsSpan defined fuel ∧ ArgumentsSpan defined fuel := by
  induction fuel with
  | zero => exact ⟨fun h => by simp [fragments] at h, fun h => by simp [arguments] at h⟩
  | succ fuel ih => exact ⟨fragmentsSpan_succ ih.1 ih.2, argumentsSpan_succ ih.1 ih.2⟩

/-- What a body or a global takes up to its terminator has directives that can be decided. The
tokens that remain are the fragments that remain, written out, up to a semicolon directly after a
`RETURN` and its arguments. -/
theorem terminated_selectList {term : Terminator} {loc : Loc} {fault : SourceFault}
    {fs : List Fragment} (h : Reads (terminated term loc fault) c fs c') (defined : String → Bool) :
    ∃ taken kept, c.rest = taken ++ c'.rest ∧ (∃ t ts, c'.rest = t :: ts ∧ term.ends t.token) ∧
      resolve defined [] taken = some kept ∧
      Spells (marksList (selectList defined fs)) (kept.map Placed.token) := by
  simp only [terminated, withFuel, reads_bind, reads_get] at h
  obtain ⟨⟨fs', stop⟩, c₁, ⟨_, _, ⟨rfl, rfl⟩, hread⟩, h⟩ := h
  by_cases hstop : stop = .terminator
  · subst hstop
    obtain ⟨rfl, rfl⟩ := reads_pure.1 (by simpa using h)
    obtain ⟨taken, kept, htaken, hyields, hspells⟩ :=
      (fragmentsSpan_and_argumentsSpan defined _).1 hread
    exact ⟨taken, kept, htaken, ends_of_fragments hread, hyields.resolve_eq, hspells⟩
  · simp [hstop] at h

/-- `f(` and one of two branches, then `)`, and a `RETURN` with its semicolon. -/
def branchingBody : List Placed :=
  [.word "f", .delim .lparen, .directive "ifdef" "A", .word "x", .directive "else" "", .word "y",
    .directive "endif" "", .delim .rparen, .delim .semicolon, .word "RETURN", .delim .lparen,
    .word "z", .delim .rparen, .delim .semicolon, .delim .rbrace].map fun t => ⟨t, ⟨"a.fsl", 1⟩⟩

theorem terminated_selectList_branchingBody : ∃ fs c',
    Reads (terminated .body ⟨"a.fsl", 1⟩ .missingSemicolon) ⟨branchingBody, ⟨"a.fsl", 1⟩⟩ fs c' ∧
      ∃ taken kept, branchingBody = taken ++ c'.rest ∧
        (∃ t ts, c'.rest = t :: ts ∧ Terminator.body.ends t.token) ∧
        resolve (· == "A") [] taken = some kept ∧
        Spells (marksList (selectList (· == "A") fs)) (kept.map Placed.token) := by
  have hread : Reads (terminated .body ⟨"a.fsl", 1⟩ .missingSemicolon)
      ⟨branchingBody, ⟨"a.fsl", 1⟩⟩
      [.call "f" [[.branch (.symbol "A") [.token ⟨.word "x", ⟨"a.fsl", 1⟩⟩]
        [.token ⟨.word "y", ⟨"a.fsl", 1⟩⟩] ⟨"a.fsl", 1⟩]] ⟨"a.fsl", 1⟩,
        .token ⟨.delim .semicolon, ⟨"a.fsl", 1⟩⟩,
        .ret [[.token ⟨.word "z", ⟨"a.fsl", 1⟩⟩]] ⟨"a.fsl", 1⟩]
      ⟨[⟨.delim .rbrace, ⟨"a.fsl", 1⟩⟩], ⟨"a.fsl", 1⟩⟩ := by
    unfold Reads
    cbv
  exact ⟨_, _, hread, terminated_selectList hread (· == "A")⟩

end ShaderDialect.Reader
