import ShaderDialect.Proofs.Reading

/-! What one step of reading a body can do. -/
namespace ShaderDialect.Reader

/-- The number of open brackets after a token that is kept as it is. Directives are not. -/
def bracketsAfter? (depth : Nat) : Token → Option Nat
  | .directive _ _ => none
  | .delim d =>
    if d.opens then some (depth + 1)
    else if d.closes then (if depth = 0 then none else some (depth - 1))
    else some depth
  | _ => some depth

def bodyBranch (fuel : Nat) (term : Terminator) (_ : Unit) : Reader (List Fragment × Unit) := do
  return ((← fragments fuel term 0).1, ())

/-- A successful step of `fragments`, with what it leaves to the steps after it. -/
inductive FragmentsStep (fuel : Nat) (term : Terminator) (depth : Nat) (c : Cursor) :
    List Fragment → Stop → Cursor → Prop
  | endOfInput : c.rest = [] → FragmentsStep fuel term depth c [] .endOfInput c
  | terminator {t : Placed} {ts : List Placed} : c.rest = t :: ts → depth = 0 → term.ends t.token →
      FragmentsStep fuel term depth c [] .terminator c
  | branchEnd {name operand : String} {loc : Loc} {ts : List Placed} :
      c.rest = ⟨.directive name operand, loc⟩ :: ts → endsBranch name →
      FragmentsStep fuel term depth c [] .branch c
  | conditional {name operand : String} {loc : Loc} {ts : List Placed} {cond : Condition}
      {yes no fs : List Fragment} {stop : Stop} {c₁ c' : Cursor} :
      c.rest = ⟨.directive name operand, loc⟩ :: ts → opensConditional name →
      ReadsConditional (bodyBranch fuel term) .branch name operand () { c with rest := ts }
        cond yes no () c₁ →
      Reads (fragments fuel term depth) c₁ (fs, stop) c' →
      FragmentsStep fuel term depth c (.branch cond yes no loc :: fs) stop c'
  | initMain {loc loc' : Loc} {ts : List Placed} {fs : List Fragment} {stop : Stop} {c' : Cursor} :
      c.rest = ⟨.word "INIT_MAIN", loc⟩ :: ⟨.delim .semicolon, loc'⟩ :: ts →
      Reads (fragments fuel term depth) { c with rest := ts } (fs, stop) c' →
      FragmentsStep fuel term depth c (.initMain loc :: fs) stop c'
  | ret {loc loc' : Loc} {ts : List Placed} {args : List (List Fragment)} {fs : List Fragment}
      {stop : Stop} {c₁ c₂ c' : Cursor} :
      c.rest = ⟨.word "RETURN", loc⟩ :: ⟨.delim .lparen, loc'⟩ :: ts →
      Reads (arguments fuel loc true) { c with rest := ts } (args, loc) c₁ →
      Reads (eat .semicolon) c₁ () c₂ →
      Reads (fragments fuel term depth) c₂ (fs, stop) c' →
      FragmentsStep fuel term depth c (.ret args loc :: fs) stop c'
  | call {name : String} {loc loc' close : Loc} {ts : List Placed} {args : List (List Fragment)}
      {fs : List Fragment} {stop : Stop} {c₁ c' : Cursor} :
      c.rest = ⟨.word name, loc⟩ :: ⟨.delim .lparen, loc'⟩ :: ts →
      Reads (arguments fuel loc true) { c with rest := ts } (args, close) c₁ →
      Reads (fragments fuel term depth) c₁ (fs, stop) c' →
      FragmentsStep fuel term depth c (.call name args loc :: fs) stop c'
  | token {t : Placed} {ts : List Placed} {depth' : Nat} {fs : List Fragment} {stop : Stop}
      {c' : Cursor} :
      c.rest = t :: ts → bracketsAfter? depth t.token = some depth' →
      Reads (fragments fuel term depth') { c with rest := ts } (fs, stop) c' →
      FragmentsStep fuel term depth c (.token t :: fs) stop c'

section
variable {fuel : Nat} {term : Terminator} {depth : Nat} {c c' : Cursor} {fs : List Fragment}
  {stop : Stop}

theorem reads_more {f : Fragment}
    (h : Reads (do let x ← fragments fuel term depth; pure (f :: x.1, x.2)) c (fs, stop) c') :
    ∃ fs', fs = f :: fs' ∧ Reads (fragments fuel term depth) c (fs', stop) c' := by
  simp only [reads_bind, reads_pure, Prod.mk.injEq] at h
  obtain ⟨x, _, hx, ⟨rfl, rfl⟩, rfl⟩ := h
  exact ⟨x.1, rfl, hx⟩

section Tokens
variable {ts : List Placed} {last : Loc}

theorem step_token {t : Placed} {depth' : Nat} (hafter : bracketsAfter? depth t.token = some depth')
    (h : Reads (do skip; let x ← fragments fuel term depth'; pure (.token t :: x.1, x.2))
      ⟨t :: ts, last⟩ (fs, stop) c') :
    FragmentsStep fuel term depth ⟨t :: ts, last⟩ fs stop c' := by
  obtain ⟨fs', rfl, hmore⟩ := reads_more (reads_skip_bind.1 h)
  exact .token rfl hafter hmore

variable {name operand : String} {d : Delimiter} {loc : Loc}

theorem step_directive (hend : ¬ (depth = 0 ∧ term.ends (.directive name operand)))
    (h : Reads (fragments (fuel + 1) term depth) ⟨⟨.directive name operand, loc⟩ :: ts, last⟩
      (fs, stop) c') :
    FragmentsStep fuel term depth ⟨⟨.directive name operand, loc⟩ :: ts, last⟩ fs stop c' := by
  rw [fragments, fragmentsRound, reads_get_bind] at h
  simp only [if_neg hend] at h
  split at h
  · next hopens =>
    obtain ⟨⟨cond, yes, no, _⟩, c₁, hcond, h⟩ := reads_bind.1 (reads_skip_bind.1 h)
    obtain ⟨fs', rfl, hmore⟩ := reads_more h
    exact .conditional rfl hopens (readsConditional_of_reads hcond) hmore
  · split at h
    · next hends =>
      simp only [reads_pure, Prod.mk.injEq] at h
      obtain ⟨⟨rfl, rfl⟩, rfl⟩ := h
      exact .branchEnd rfl hends
    · simp at h

theorem step_word (hend : ¬ (depth = 0 ∧ term.ends (.word name)))
    (h : Reads (fragments (fuel + 1) term depth) ⟨⟨.word name, loc⟩ :: ts, last⟩ (fs, stop) c') :
    FragmentsStep fuel term depth ⟨⟨.word name, loc⟩ :: ts, last⟩ fs stop c' := by
  rw [fragments, fragmentsRound, reads_get_bind] at h
  simp only [if_neg hend] at h
  split at h
  · next hname =>
    obtain ⟨_, _, rfl, h⟩ := reads_expect_bind.1 (reads_skip_bind.1 h)
    obtain ⟨fs', rfl, hmore⟩ := reads_more h
    exact hname ▸ .initMain rfl hmore
  · split at h
    · next hret =>
      obtain ⟨rfl, -⟩ := hret
      obtain ⟨_, _, rfl, h⟩ := reads_expect_bind.1 (reads_skip_bind.1 h)
      obtain ⟨⟨args, close⟩, c₁, hargs, h⟩ := reads_bind.1 h
      simp only at h
      split at h
      · simp at h
      · next hclose =>
        obtain rfl := Decidable.not_not.1 hclose
        obtain ⟨_, c₂, heat, h⟩ := reads_bind.1 h
        obtain ⟨fs', rfl, hmore⟩ := reads_more h
        exact .ret rfl hargs heat hmore
    · split at h
      · obtain ⟨_, _, rfl, h⟩ := reads_expect_bind.1 (reads_skip_bind.1 h)
        obtain ⟨⟨args, close⟩, c₁, hargs, h⟩ := reads_bind.1 h
        obtain ⟨fs', rfl, hmore⟩ := reads_more h
        exact .call rfl hargs hmore
      · exact step_token rfl h

theorem step_delim (hend : ¬ (depth = 0 ∧ term.ends (.delim d)))
    (h : Reads (fragments (fuel + 1) term depth) ⟨⟨.delim d, loc⟩ :: ts, last⟩ (fs, stop) c') :
    FragmentsStep fuel term depth ⟨⟨.delim d, loc⟩ :: ts, last⟩ fs stop c' := by
  rw [fragments, fragmentsRound, reads_get_bind] at h
  simp only [if_neg hend] at h
  split at h
  · next hopens => exact step_token (by simp [bracketsAfter?, hopens]) h
  · next hopens =>
    split at h
    · next hcloses =>
      split at h
      · simp at h
      · next hdepth => exact step_token (by simp [bracketsAfter?, hopens, hcloses, hdepth]) h
    · next hcloses => exact step_token (by simp [bracketsAfter?, hopens, hcloses]) h

end Tokens

theorem fragments_step (h : Reads (fragments (fuel + 1) term depth) c (fs, stop) c') :
    FragmentsStep fuel term depth c fs stop c' := by
  obtain ⟨rest, last⟩ := c
  have hround := h
  rw [fragments, fragmentsRound, reads_get_bind] at hround
  cases rest with
  | nil =>
    simp only [reads_pure, Prod.mk.injEq] at hround
    obtain ⟨⟨rfl, rfl⟩, rfl⟩ := hround
    exact .endOfInput rfl
  | cons t ts =>
    obtain ⟨token, loc⟩ := t
    by_cases hend : depth = 0 ∧ term.ends token
    · simp only [if_pos hend, reads_pure, Prod.mk.injEq] at hround
      obtain ⟨⟨rfl, rfl⟩, rfl⟩ := hround
      exact .terminator rfl hend.1 hend.2
    · cases token with
      | directive name operand => exact step_directive hend h
      | word name => exact step_word hend h
      | delim d => exact step_delim hend h
      | _ =>
        simp only [if_neg hend] at hround
        exact step_token rfl hround

/-- Arguments are one argument and its end: the closing parenthesis, or another one and the
arguments after it. -/
theorem arguments_step {loc close : Loc} {first : Bool} {args : List (List Fragment)}
    (h : Reads (arguments (fuel + 1) loc first) c (args, close) c') :
    ∃ arg c₁ t ts, Reads (fragments fuel .argument 0) c (arg, .terminator) c₁ ∧ c₁.rest = t :: ts ∧
      ((t = ⟨.delim .rparen, close⟩ ∧ c' = { c₁ with rest := ts } ∧
          ((arg = [] ∧ first = true ∧ args = []) ∨ (arg ≠ [] ∧ args = [arg]))) ∨
        (t.token ≠ .delim .rparen ∧ arg ≠ [] ∧ ∃ args', args = arg :: args' ∧
          Reads (arguments fuel loc false) { c₁ with rest := ts } (args', close) c')) := by
  rw [arguments, argumentsRound] at h
  obtain ⟨⟨arg, stop⟩, ⟨rest, last⟩, harg, hstop⟩ := reads_bind.1 h
  by_cases hs : stop = .terminator
  · subst hs
    simp only [ne_eq, not_true_eq_false, if_false] at hstop
    obtain ⟨next, _, hnext, hend⟩ := reads_bind.1 hstop
    obtain ⟨rfl, rfl⟩ := reads_next?.1 hnext
    cases rest with
    | nil => simp at hend
    | cons t ts =>
      refine ⟨arg, _, t, ts, harg, rfl, ?_⟩
      obtain ⟨token, at_⟩ := t
      simp only [List.head?_cons, List.tail_cons, beq_iff_eq] at hend
      by_cases hempty : arg = []
      · by_cases hclose : token = .delim .rparen ∧ first = true
        · obtain ⟨rfl, rfl⟩ := hclose
          simp [hempty] at hend
          obtain ⟨⟨rfl, rfl⟩, rfl⟩ := hend
          exact .inl ⟨rfl, rfl, .inl ⟨hempty, rfl, rfl⟩⟩
        · simp [hempty, hclose] at hend
      · have hno : ¬ (token = .delim .rparen ∧ arg.isEmpty = true ∧ first = true) := by
          simp [hempty]
        rw [if_neg hno, if_neg (by simpa using hempty)] at hend
        by_cases hparen : token = .delim .rparen
        · rw [if_pos hparen] at hend
          simp only [reads_pure, Prod.mk.injEq] at hend
          obtain ⟨⟨rfl, rfl⟩, rfl⟩ := hend
          exact .inl ⟨by rw [hparen], rfl, .inr ⟨hempty, rfl⟩⟩
        · rw [if_neg hparen] at hend
          obtain ⟨⟨args', close'⟩, c₂, hargs, hpure⟩ := reads_bind.1 hend
          simp only [reads_pure, Prod.mk.injEq] at hpure
          obtain ⟨⟨rfl, rfl⟩, rfl⟩ := hpure
          exact .inr ⟨hparen, hempty, args', rfl, hargs⟩
  · simp [hs] at hstop

theorem ends_of_fragments (h : Reads (fragments fuel term depth) c (fs, .terminator) c') :
    ∃ t ts, c'.rest = t :: ts ∧ term.ends t.token := by
  induction fuel generalizing depth c fs with
  | zero => simp [fragments] at h
  | succ fuel ih =>
    cases fragments_step h with
    | terminator hrest _ hends => exact ⟨_, _, hrest, hends⟩
    | conditional _ _ _ hmore => exact ih hmore
    | initMain _ hmore => exact ih hmore
    | ret _ _ _ hmore => exact ih hmore
    | call _ _ hmore => exact ih hmore
    | token _ _ hmore => exact ih hmore

end
end ShaderDialect.Reader
