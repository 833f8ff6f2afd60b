import ShaderDialect.Proofs.Body.Selection
import ShaderDialect.Proofs.Success

/-! Where the readers of declarations go. Each of them answers wherever it starts: it finds a fault
in the source, or it goes on to a later place. The conditional directives on the way are closed, as
long as directives stand on lines of their own. -/
namespace ShaderDialect.Directive

/-- A line with a conditional directive has nothing else on it. -/
def Alone (ts : List Placed) : Prop :=
  ∀ t ∈ ts, ∀ u ∈ ts, t.loc = u.loc → conditional? u.token = none → conditional? t.token = none

variable {ts us : List Placed}

theorem Alone.suffix (h : Alone ts) (hsuffix : us <:+ ts) : Alone us :=
  fun t ht u hu => h t (hsuffix.subset ht) u (hsuffix.subset hu)

/-- Every conditional that is opened is closed, whatever symbols are defined. -/
def Closed (ts : List Placed) : Prop := ∀ defined, ∃ kept, Yields defined ts kept

theorem closed_nil : Closed [] := fun _ => ⟨[], yields_nil⟩

theorem Closed.append (h : Closed ts) (h' : Closed us) : Closed (ts ++ us) := by
  intro defined
  obtain ⟨kept, hyields⟩ := h defined
  obtain ⟨kept', hyields'⟩ := h' defined
  exact ⟨kept ++ kept', hyields.append hyields'⟩

theorem closed_of_forall (h : ∀ t ∈ ts, conditional? t.token = none) : Closed ts := by
  intro defined
  refine ⟨ts, ?_⟩
  induction ts with
  | nil => exact yields_nil
  | cons t ts ih =>
    exact .cons (h t (.head _)) (ih fun u hu => h u (.tail _ hu))

end ShaderDialect.Directive

namespace ShaderDialect.Reader
open List Directive

variable {α β ι κ : Type} {c c₁ c' : Cursor} {t : Placed} {ts us arg : List Placed} {loc : Loc}
  {d : Delimiter} {name : String} {args : List (List Placed)} {n fuel : Nat} {σ : Type}
  {branch : σ → Reader (List α × σ)} {wrap : Condition → List α → List α → Loc → α}
  {directive operand : String} {s s' : σ} {cond : Condition} {yes no : List α}

theorem suffix_of_cons (h : c.rest = t :: ts) : ts <:+ c.rest :=
  ⟨[t], h.symm⟩

theorem ReadsConditional.suffix
    (h : ReadsConditional branch wrap directive operand s c cond yes no s' c')
    (hbranch : ∀ s ⦃c₁ a c₂⦄, c₁.rest <:+ c.rest → Reads (branch s) c₁ a c₂ → c₂.rest <:+ c₁.rest) :
    c'.rest <:+ c.rest := by
  refine (h.forall_branches (· <:+ c.rest) (fun _ => True) suffix_rfl trivial
    (fun ht => (suffix_cons _ _).trans ht) (fun _ _ _ _ _ _ => trivial) fun hread hc => ?_).1
  exact ⟨(hbranch _ hc hread).trans hc, trivial⟩

/-- What is between the tokens before and after a reading. It may be a token that is no conditional
directive, a marker, a whole conditional, or fragments. -/
structure Course where
  rel : List Placed → List Placed → Prop
  refl (ts : List Placed) : rel ts ts
  trans {ts us vs : List Placed} : rel ts us → rel us vs → rel ts vs
  suffix {ts us : List Placed} : rel ts us → us <:+ ts
  token {t : Placed} (ts : List Placed) : conditional? t.token = none → rel (t :: ts) ts
  marker {us : List Placed} {loc : Loc} (name : String) (loc' : Loc) (ts : List Placed) :
    (∀ u ∈ us, u.loc = loc) → rel (⟨.word name, loc⟩ :: ⟨.delim .lparen, loc'⟩ :: (us ++ ts)) ts
  conditional {α σ : Type} {branch : σ → Reader (List α × σ)}
    {wrap : Condition → List α → List α → Loc → α} {directive operand : String} {s s' : σ}
    {cond : Condition} {yes no : List α} {c c' : Cursor} (loc : Loc) :
    opensConditional directive →
    (∀ s ⦃c₁ a c₂⦄, c₁.rest <:+ c.rest → Reads (branch s) c₁ a c₂ → rel c₁.rest c₂.rest) →
    ReadsConditional branch wrap directive operand s c cond yes no s' c' →
    rel (⟨.directive directive operand, loc⟩ :: c.rest) c'.rest
  fragments {fuel depth : Nat} {term : Terminator} {c c' : Cursor} {r : List Fragment × Stop} :
    Reads (fragments fuel term depth) c r c' → rel c.rest c'.rest

/-- Between two places stand tokens whose conditionals are closed. -/
def Passes (ts us : List Placed) : Prop := ∃ vs, ts = vs ++ us ∧ (Alone ts → Closed vs)

variable {depth : Nat} {term : Terminator}

namespace Passes

theorem trans {ts us vs : List Placed} (h : Passes ts us) (h' : Passes us vs) :
    Passes ts vs := by
  obtain ⟨as, rfl, hclosed⟩ := h
  obtain ⟨bs, rfl, hclosed'⟩ := h'
  refine ⟨as ++ bs, by simp, fun halone => (hclosed halone).append (hclosed' ?_)⟩
  exact halone.suffix ⟨as, rfl⟩

theorem suffix (h : Passes ts us) : us <:+ ts := by
  obtain ⟨vs, rfl, -⟩ := h
  exact ⟨vs, rfl⟩

theorem marker (name : String) (loc' : Loc) (ts : List Placed) (hus : ∀ u ∈ us, u.loc = loc) :
    Passes (⟨.word name, loc⟩ :: ⟨.delim .lparen, loc'⟩ :: (us ++ ts)) ts := by
  refine ⟨⟨.word name, loc⟩ :: ⟨.delim .lparen, loc'⟩ :: us, rfl, fun halone => ?_⟩
  refine closed_of_forall fun t ht => ?_
  simp only [mem_cons] at ht
  rcases ht with rfl | rfl | ht
  · rfl
  · rfl
  · exact halone t (by simp [ht]) ⟨.word name, loc⟩ (.head _) (hus t ht) rfl

theorem conditional (loc : Loc) (hopens : opensConditional directive)
    (hbranch : ∀ s ⦃c₁ a c₂⦄, c₁.rest <:+ c.rest → Reads (branch s) c₁ a c₂ →
      Passes c₁.rest c₂.rest)
    (h : ReadsConditional branch wrap directive operand s c cond yes no s' c') :
    Passes (⟨.directive directive operand, loc⟩ :: c.rest) c'.rest := by
  obtain ⟨us, hus⟩ := h.suffix fun s _ _ _ hc hread => (hbranch s hc hread).suffix
  refine ⟨⟨.directive directive operand, loc⟩ :: us, by simp [hus], fun halone defined => ?_⟩
  have htakes :
      Takes defined ⟨⟨.directive directive operand, loc⟩ :: c.rest, c.last⟩ c' fun _ => True :=
    h.takes (fun _ _ => True) rfl hopens (fun hsuffix hread => ?_) trivial fun _ _ => trivial
  · obtain ⟨vs, kept, hvs, hyields, -⟩ := htakes
    rw [← hus, ← cons_append] at hvs
    obtain rfl := append_cancel_right hvs
    exact ⟨kept, hyields⟩
  · obtain ⟨vs, hvs, hclosed⟩ := hbranch _ hsuffix hread
    have hsuffix' := hsuffix.trans (suffix_cons ⟨.directive directive operand, loc⟩ c.rest)
    obtain ⟨kept, hyields⟩ := hclosed (halone.suffix hsuffix') defined
    exact ⟨vs, kept, hvs, hyields, trivial⟩

theorem fragments {r : List Fragment × Stop} (h : Reads (fragments fuel term depth) c r c') :
    Passes c.rest c'.rest := by
  have htakes (defined : String → Bool) := (fragmentsSpan_and_argumentsSpan defined fuel).1 h
  obtain ⟨ts, -, hts, -, -⟩ := htakes fun _ => false
  refine ⟨ts, hts, fun _ defined => ?_⟩
  obtain ⟨us, kept, hus, hyields, -⟩ := htakes defined
  obtain rfl : ts = us := append_cancel_right (hts.symm.trans hus)
  exact ⟨kept, hyields⟩

end Passes

/-- The course of all readers whose conditionals are closed. -/
def Course.closed : Course where
  rel := Passes
  refl _ := ⟨[], rfl, fun _ => closed_nil⟩
  trans := Passes.trans
  suffix := Passes.suffix
  token ts ht := ⟨[_], rfl, fun _ => closed_of_forall (by simpa using ht)⟩
  marker := Passes.marker
  conditional := Passes.conditional
  fragments := Passes.fragments

/-- The course of all readers: they never go back. -/
def Course.onward : Course where
  rel ts us := us <:+ ts
  refl := suffix_refl
  trans h h' := h'.trans h
  suffix h := h
  token ts _ := suffix_cons _ ts
  marker _ _ _ _ := ⟨_ :: _ :: _, rfl⟩
  conditional _ _ hbranch h := (h.suffix hbranch).trans (suffix_cons _ _)
  fragments h := (Passes.fragments h).suffix

/-- A reader answers at a cursor: it keeps to the course, or it finds a fault in the source. -/
structure Answers (R : Course) (x : Reader α) (c : Cursor) : Prop where
  moves : ∀ ⦃a c'⦄, Reads x c a c' → R.rel c.rest c'.rest
  faults : ∀ ⦃e⦄, x.run c = .error e → ∃ loc fault, e = .source loc fault

/-- A reader answers wherever it starts in the tokens. -/
def Within (R : Course) (ts : List Placed) (x : Reader α) : Prop :=
  ∀ ⦃c⦄, c.rest <:+ ts → Answers R x c

/-- The second cursor has fewer tokens left. -/
def Behind (c c' : Cursor) : Prop := ∃ t ts, c.rest = t :: ts ∧ c'.rest <:+ ts

/-- A reader that answers everywhere and does not stay where it is. -/
structure Advances (R : Course) (x : Reader α) : Prop where
  within (ts : List Placed) : Within R ts x
  behind : ∀ ⦃c a c'⦄, Reads x c a c' → Behind c c'

theorem behind_of_suffix (hc : c₁.rest <:+ c.rest) (hrest : c₁.rest = t :: ts)
    (h : c'.rest <:+ ts) : Behind c c' := by
  obtain ⟨us, hus⟩ := hc
  rw [hrest] at hus
  cases us with
  | nil => exact ⟨t, ts, hus.symm, h⟩
  | cons u us => exact ⟨u, us ++ t :: ts, hus.symm, h.trans ⟨us ++ [t], by simp⟩⟩

variable {p : Prop} {fault : SourceFault}

section Answers
variable {R : Course} {x : Reader β} {f : β → Reader α}

theorem Answers.bind (hx : Answers R x c) (hf : ∀ b c₁, Reads x c b c₁ → Answers R (f b) c₁) :
    Answers R (x >>= f) c := by
  constructor
  · intro a c' h
    obtain ⟨b, c₁, hb, ha⟩ := reads_bind.1 h
    exact R.trans (hx.moves hb) ((hf b c₁ hb).moves ha)
  · intro e he
    rw [StateT.run_bind] at he
    cases hrun : x.run c with
    | error e' =>
      rw [hrun] at he
      cases he
      exact hx.faults hrun
    | ok r =>
      rw [hrun] at he
      exact (hf r.1 r.2 hrun).faults he

theorem Within.bind (hx : Within R ts x) (hf : ∀ b, Within R ts (f b)) : Within R ts (x >>= f) :=
  fun _ hc => (hx hc).bind fun b _ h => hf b ((R.suffix ((hx hc).moves h)).trans hc)

theorem Answers.ite [Decidable p] {x y : Reader α} (hx : Answers R x c) (hy : Answers R y c) :
    Answers R (if p then x else y) c := by
  split
  · exact hx
  · exact hy

theorem Within.ite [Decidable p] {x y : Reader α} (hx : Within R ts x) (hy : Within R ts y) :
    Within R ts (if p then x else y) := fun _ hc => .ite (hx hc) (hy hc)

theorem Advances.bind (hx : Advances R x) (hf : ∀ b ts, Within R ts (f b)) :
    Advances R (x >>= f) := by
  refine ⟨fun ts => (hx.within ts).bind fun b => hf b ts, fun c a c' h => ?_⟩
  obtain ⟨b, c₁, hb, ha⟩ := reads_bind.1 h
  obtain ⟨t, ts, hrest, hsuffix⟩ := hx.behind hb
  exact ⟨t, ts, hrest, (R.suffix ((hf b _ suffix_rfl).moves ha)).trans hsuffix⟩

theorem Advances.after (hx : ∀ ts, Within R ts x) (hf : ∀ b, Advances R (f b)) :
    Advances R (x >>= f) := by
  refine ⟨fun ts => (hx ts).bind fun b => (hf b).within ts, fun c a c' h => ?_⟩
  obtain ⟨b, c₁, hb, ha⟩ := reads_bind.1 h
  obtain ⟨t, ts, hrest, hsuffix⟩ := (hf b).behind ha
  exact behind_of_suffix (R.suffix ((hx _ suffix_rfl).moves hb)) hrest hsuffix

/-- What follows a reader that advances has one token less to start from. -/
theorem Advances.answers (hx : Advances R x) (hrest : c.rest = t :: ts)
    (hf : ∀ b, Within R ts (f b)) : Answers R (x >>= f) c := by
  refine (hx.within _ suffix_rfl).bind fun b c₁ hb => hf b ?_
  obtain ⟨t', ts', hrest', hsuffix⟩ := hx.behind hb
  cases hrest.symm.trans hrest'
  exact hsuffix

theorem Advances.passes {x : Reader α} {a : α} (hx : Advances .closed x) (h : Reads x c a c') :
    Passes c.rest c'.rest := (hx.within _ suffix_rfl).moves h

theorem answers_pure {a : α} : Answers R (pure a) c := by
  refine ⟨fun b c' h => ?_, fun e he => by cases he⟩
  obtain ⟨-, rfl⟩ := reads_pure.1 h
  exact R.refl _

theorem answers_fail : Answers R (fail loc fault : Reader α) c :=
  ⟨fun _ _ h => (reads_fail h).elim, fun e he => ⟨loc, fault, by cases he; rfl⟩⟩

theorem answers_fail_bind : Answers R (fail loc fault >>= f) c :=
  answers_fail.bind fun _ _ h => (reads_fail h).elim

theorem within_pure {a : α} : Within R ts (pure a) := fun _ _ => answers_pure

theorem within_fail : Within R ts (fail loc fault : Reader α) :=
  fun _ _ => answers_fail

theorem within_fail_bind : Within R ts (fail loc fault >>= f) :=
  fun _ _ => answers_fail_bind

theorem Answers.look {b : β} (hx : x.run c = .ok (b, c)) (hf : Answers R (f b) c) :
    Answers R (x >>= f) c := by
  refine Answers.bind ⟨fun b' c' h => ?_, fun e he => ?_⟩ fun b' c' h => ?_
  · cases hx.symm.trans h
    exact R.refl _
  · cases hx.symm.trans he
  · cases hx.symm.trans h
    exact hf

theorem within_look {b : Cursor → α} {x : Reader α} (hx : ∀ c, x.run c = .ok (b c, c)) :
    Within R ts x := by
  intro c _
  refine ⟨fun a c' h => ?_, fun e he => ?_⟩
  · cases (hx c).symm.trans h
    exact R.refl _
  · cases (hx c).symm.trans he

theorem within_here : Within R ts here := within_look fun _ => rfl
theorem within_peek? : Within R ts peek? := within_look fun _ => rfl
theorem within_isNext : Within R ts (isNext d) := within_look fun _ => rfl
theorem within_isNextWord : Within R ts (isNextWord name) := within_look fun _ => rfl

theorem answers_skip (hrest : c.rest = t :: ts) (hrel : R.rel (t :: ts) ts) : Answers R skip c := by
  refine ⟨fun _ c' h => ?_, fun e he => by cases he⟩
  obtain rfl := reads_skip.1 h
  simpa [hrest] using hrel

theorem answers_skip_bind {f : Unit → Reader α} (hrest : c.rest = t :: ts)
    (hrel : R.rel (t :: ts) ts) (hf : Within R ts (f ())) : Answers R (skip >>= f) c := by
  refine (answers_skip hrest hrel).bind fun _ c₁ h => hf ?_
  obtain rfl := reads_skip.1 h
  simp [hrest]

theorem within_test {token : Token} {test : Reader Bool} {f : Bool → Reader α}
    (htest : ∀ c, test.run c = .ok (c.rest.head?.map Placed.token == some token, c))
    (hyes : ∀ {loc us last}, us <:+ ts → Answers R (f true) ⟨⟨token, loc⟩ :: us, last⟩)
    (hno : Within R ts (f false)) : Within R ts (test >>= f) := by
  rintro ⟨rest, last⟩ hc
  refine .look (htest _) ?_
  cases rest with
  | nil => exact hno hc
  | cons t us =>
    obtain ⟨token', loc⟩ := t
    by_cases ht : token' = token
    · subst ht
      simpa using hyes ((suffix_cons _ us).trans hc)
    · have hfalse : (some token' == some token) = false := by simpa using ht
      simpa [hfalse] using hno hc

theorem Answers.onward {x : Reader α} (h : Answers R x c) : Answers .onward x c :=
  ⟨fun _ _ hx => R.suffix (h.moves hx), h.faults⟩

theorem onward_skip : Within .onward ts skip := by
  refine fun c _ => ⟨fun _ c' h => ?_, fun e he => by cases he⟩
  obtain rfl := reads_skip.1 h
  exact tail_suffix c.rest

theorem within_eat : Within R ts (eat d) :=
  within_test (fun _ => rfl) (fun _ => answers_skip rfl (R.token _ rfl)) within_pure

theorem advances_expect : Advances R (expect d) := by
  refine ⟨fun ts => within_test (fun _ => rfl) (fun _ => answers_skip rfl (R.token _ rfl)) ?_, ?_⟩
  · exact within_here.bind fun _ => within_peek?.bind fun _ => within_fail
  · intro c _ c' h
    obtain ⟨loc, ts, hrest, rfl⟩ := reads_expect.1 h
    exact ⟨_, ts, hrest, suffix_rfl⟩

theorem within_expect : Within R ts (expect d) := advances_expect.within ts

theorem within_peekWord : Within R ts peekWord := by
  refine within_peek?.bind fun found => ?_
  split
  · exact within_pure
  · exact within_here.bind fun _ => within_fail

theorem reads_peekWord :
    Reads peekWord c name c' ↔ ∃ loc ts, c.rest = ⟨.word name, loc⟩ :: ts ∧ c' = c := by
  obtain ⟨rest, last⟩ := c
  cases rest with
  | nil => simp [peekWord]
  | cons t ts =>
    obtain ⟨token, loc⟩ := t
    cases token <;> simp [peekWord, eq_comm, and_comm]

theorem advances_expectWord : Advances R expectWord := by
  refine ⟨fun ts c hc => (within_peekWord hc).bind fun name c₁ h => ?_, fun c a c' h => ?_⟩
  · obtain ⟨loc, us, hrest, rfl⟩ := reads_peekWord.1 h
    exact answers_skip_bind hrest (R.token us rfl) within_pure
  · simp only [expectWord, reads_bind, reads_peekWord, reads_skip, reads_pure] at h
    obtain ⟨name, _, ⟨loc, ts, hrest, rfl⟩, _, _, rfl, -, rfl⟩ := h
    exact ⟨_, ts, hrest, by simp [hrest]⟩

theorem within_expectWord : Within R ts expectWord := advances_expectWord.within ts

end Answers

variable {finish : String} {start : Loc}

section Progress
variable {R : Course}

/-- One round of a loop answers wherever it starts in the tokens, if only the rounds that have fewer
tokens left do. So it cannot ask for any other round: there nothing is known of the answer. -/
def Progress (R : Course) (ts : List Placed) (round : (ι → Reader α) → κ → Reader β) : Prop :=
  ∀ ⦃again c⦄, c.rest <:+ ts → (∀ j c', Behind c c' → Answers R (again j) c') →
    ∀ i, Answers R (round again i) c

/-- A loop of rounds that progress answers, as long as it has more fuel than tokens. -/
theorem Progress.within {round : (ι → Reader α) → ι → Reader α} (hround : Progress R ts round)
    (run : Nat → ι → Reader α) (hrun : ∀ n i, run (n + 1) i = round (run n) i) (i : ι) :
    Within R ts (withFuel (run · i)) := by
  have hanswers (n : Nat) : ∀ i c, c.rest <:+ ts → c.rest.length < n → Answers R (run n i) c := by
    induction n with
    | zero =>
      intro i c _ hn
      omega
    | succ n ih =>
      intro i c hc hn
      rw [hrun]
      refine hround hc (fun j c' hbehind => ?_) i
      obtain ⟨t, us, hrest, hsuffix⟩ := hbehind
      rw [hrest] at hc hn
      have hlength := hsuffix.length_le
      rw [length_cons] at hn
      exact ih j c' (hsuffix.trans ((suffix_cons t us).trans hc)) (by omega)
  exact fun c hc => .look rfl (hanswers _ i c hc (by omega))

theorem answers_next?_bind {f : Option Placed → Reader α} (hnone : Answers .onward (f none) c)
    (hsome : ∀ t us, c.rest = t :: us → Within .onward us (f (some t))) :
    Answers .onward (next? >>= f) c := by
  obtain ⟨_ | ⟨t, us⟩, last⟩ := c
  · exact .look rfl hnone
  · have hnext : Answers .onward next? ⟨t :: us, last⟩ := by
      refine ⟨fun a c' h => ?_, fun e he => by cases he⟩
      obtain ⟨-, rfl⟩ := reads_next?.1 h
      exact suffix_cons t us
    refine hnext.bind fun b c₁ h => ?_
    obtain ⟨rfl, rfl⟩ := reads_next?.1 h
    exact hsome t us rfl suffix_rfl

theorem progress_marker : Progress .onward ts (markerRound name loc) := by
  intro again c _ hagain depth
  refine answers_next?_bind answers_fail fun t us hrest => ?_
  have hagain' (depth : Nat) : Within .onward us (again depth) :=
    fun c' hc' => hagain depth c' ⟨t, us, hrest, hc'⟩
  have hpush (depth : Nat) : Within .onward us (do
      let args ← again depth
      return (t :: args.headD []) :: args.tail) := (hagain' depth).bind fun _ => within_pure
  refine .ite within_fail_bind ?_
  split
  · exact .ite within_pure (hpush _)
  · exact .ite ((hagain' 0).bind fun _ => within_pure) (hpush _)
  all_goals exact hpush _

/-- The arguments of a marker are made of tokens that are all on its line. -/
theorem reads_markerArguments (h : Reads (markerArguments name loc fuel depth) c args c') :
    ∃ us, c.rest = us ++ c'.rest ∧ (∀ t ∈ us, t.loc = loc) ∧ ∀ arg ∈ args, arg ⊆ us := by
  induction fuel generalizing depth c args with
  | zero => simp [markerArguments] at h
  | succ fuel ih =>
    rw [markerArguments, markerRound] at h
    obtain ⟨t, c₁, hnext, h⟩ := reads_bind.1 h
    obtain ⟨rfl, rfl⟩ := reads_next?.1 hnext
    obtain ⟨_ | ⟨t, ts⟩, last⟩ := c
    · simp at h
    by_cases hloc : t.loc = loc
    · have hmore {depth : Nat} {args' : List (List Placed)}
          (h : Reads (markerArguments name loc fuel depth) ⟨ts, last⟩ args' c') :
          ∃ us, t :: ts = t :: us ++ c'.rest ∧ (∀ u ∈ t :: us, u.loc = loc) ∧ ∀ arg ∈ args',
            arg ⊆ us := by
        obtain ⟨us, hus, hlocs, hargs⟩ := ih h
        exact ⟨us, congrArg (t :: ·) hus, forall_mem_cons.2 ⟨hloc, hlocs⟩, hargs⟩
      have hpush {depth : Nat} (h : Reads (do
          let args ← markerArguments name loc fuel depth
          return (t :: args.headD []) :: args.tail) ⟨ts, last⟩ args c') :
          ∃ us, t :: ts = us ++ c'.rest ∧ (∀ u ∈ us, u.loc = loc) ∧ ∀ arg ∈ args, arg ⊆ us := by
        obtain ⟨args', c₂, hread, hpure⟩ := reads_bind.1 h
        obtain ⟨rfl, rfl⟩ := reads_pure.1 hpure
        obtain ⟨us, hus, hlocs, hargs⟩ := hmore hread
        refine ⟨t :: us, hus, hlocs, forall_mem_cons.2 ⟨cons_subset_cons t ?_, fun arg harg => ?_⟩⟩
        · cases args' with
          | nil => exact nil_subset us
          | cons first _ => exact hargs first mem_cons_self
        · exact subset_cons_of_subset t (hargs arg (mem_of_mem_tail harg))
      simp only [head?_cons, tail_cons, hloc, ne_eq, not_true_eq_false, if_false] at h
      split at h
      · split at h
        · obtain ⟨rfl, rfl⟩ := reads_pure.1 h
          exact ⟨[t], rfl, by simpa using hloc, by simp⟩
        · exact hpush h
      · split at h
        · obtain ⟨args', c₂, hread, hpure⟩ := reads_bind.1 h
          obtain ⟨rfl, rfl⟩ := reads_pure.1 hpure
          obtain ⟨us, hus, hlocs, hargs⟩ := hmore hread
          refine ⟨t :: us, hus, hlocs, forall_mem_cons.2 ⟨nil_subset _, fun arg harg => ?_⟩⟩
          exact subset_cons_of_subset t (hargs arg harg)
        · exact hpush h
      all_goals exact hpush h
    · simp [hloc] at h

theorem reads_marker (h : Reads (marker name) c (loc, args) c') :
    ∃ loc' us, c.rest = ⟨.word name, loc⟩ :: ⟨.delim .lparen, loc'⟩ :: (us ++ c'.rest) ∧
      (∀ u ∈ us, u.loc = loc) ∧ ∀ arg ∈ args, arg ⊆ us := by
  obtain ⟨_ | ⟨⟨token, at_⟩, ts⟩, last⟩ := c
  all_goals
    simp only [marker, reads_bind, reads_here, reads_isNextWord] at h
    obtain ⟨_, _, ⟨rfl, rfl⟩, _, _, ⟨rfl, rfl⟩, h⟩ := h
  · simp at h
  · by_cases hname : token = .word name
    · subst hname
      simp [reads_expect] at h
      obtain ⟨loc', us, rfl, args', hargs, rfl, rfl⟩ := h
      obtain ⟨vs, hvs, hlocs, hsubset⟩ := reads_markerArguments hargs
      refine ⟨loc', vs, by simp [← hvs], hlocs, fun arg harg => ?_⟩
      split at harg
      · cases harg
      · exact hsubset arg harg
    · simp [hname] at h

theorem advances_marker : Advances R (marker name) := by
  have honward : ∀ ts, Within .onward ts (marker name) := by
    intro ts
    refine within_here.bind fun loc => within_isNextWord.bind fun b => .ite within_fail_bind ?_
    refine onward_skip.bind fun _ => within_expect.bind fun _ => ?_
    exact (progress_marker.within (markerArguments name loc) (fun _ _ => rfl) 0).bind fun _ =>
      within_pure
  refine ⟨fun ts c hc => ⟨fun a c' h => ?_, (honward ts hc).faults⟩, fun c a c' h => ?_⟩
  · obtain ⟨loc', us, hrest, hus, -⟩ := reads_marker h
    rw [hrest]
    exact R.marker name loc' _ hus
  · obtain ⟨loc', us, hrest, -⟩ := reads_marker h
    exact ⟨_, _, hrest, ⟨_ :: us, rfl⟩⟩

theorem within_expectCount : Within R ts (expectCount name loc args n) :=
  .ite within_pure within_fail

theorem within_wordArgument {what : String} : Within R ts (wordArgument loc args n what) := by
  unfold wordArgument
  split
  · exact within_pure
  · exact within_fail

theorem within_frequencyArgument : Within R ts (frequencyArgument loc args n) := by
  refine within_wordArgument.bind fun name => ?_
  split
  · exact within_pure
  · exact within_fail

theorem within_integerArgument : Within R ts (integerArgument loc arg) := by
  unfold integerArgument
  split
  · split
    · exact within_pure
    · exact within_fail
  · exact within_fail

theorem within_nameArgument : Within R ts (nameArgument loc arg) := by
  unfold nameArgument
  split
  · exact within_pure
  · split
    · exact .ite within_fail (.ite within_fail within_pure)
    · exact within_fail
  · exact within_fail
  · exact within_fail

theorem within_resourceArgument : Within R ts (resourceArgument name loc arg) := by
  unfold resourceArgument
  dsimp only
  repeat' split
  all_goals first | exact within_pure | exact within_fail

theorem advances_resourceDecl : Advances R resourceDecl := by
  refine .after (fun _ => within_peekWord) fun name => advances_marker.bind fun r ts => ?_
  refine within_expectCount.bind fun _ => within_frequencyArgument.bind fun frequency => ?_
  exact within_resourceArgument.bind fun kind => within_nameArgument.bind fun _ => within_pure

theorem progress_declarations :
    Progress R ts fun again (_ : Unit) => declarationsRound finish start (again ()) := by
  intro again c _ hagain _
  refine .look rfl (.ite answers_pure ?_)
  obtain ⟨_ | ⟨t, us⟩, last⟩ := c
  · exact .look rfl answers_fail
  · refine .look rfl ?_
    dsimp only
    split
    · refine .ite (advances_resourceDecl.answers rfl fun decl => within_eat.bind fun _ => ?_)
        answers_fail
      exact Within.bind (fun c' hc' => hagain () c' ⟨t, us, rfl, hc'⟩) fun _ => within_pure
    · exact answers_fail
    · exact answers_fail

theorem within_declarations : Within R ts (withFuel (declarations finish start)) :=
  progress_declarations.within (fun n _ => declarations finish start n) (fun _ _ => rfl) ()

theorem within_ownSet {frequency : Frequency} : Within R ts (ownSet frequency loc) := by
  refine within_here.bind fun start => within_declarations.bind fun decls => ?_
  refine (advances_marker.within ts).bind fun r => within_frequencyArgument.bind fun found => ?_
  exact .ite within_fail_bind (within_eat.bind fun _ => within_pure)

theorem progress_tableSets :
    Progress R ts fun again (_ : Unit) => tableSetsRound name loc (again ()) := by
  intro again c _ hagain _
  obtain ⟨_ | ⟨t, us⟩, last⟩ := c
  · exact .look rfl answers_fail
  · have hmore (s : SetSource) : Within R us (do return s :: (← again ())) :=
      Within.bind (fun c' hc' => hagain () c' ⟨t, us, rfl, hc'⟩) fun _ => within_pure
    refine .look rfl ?_
    dsimp only
    split
    · refine advances_marker.answers rfl fun r => within_expectCount.bind fun _ => ?_
      exact within_frequencyArgument.bind fun _ => within_ownSet.bind fun set => hmore _
    · refine advances_marker.answers rfl fun r => within_expectCount.bind fun _ => ?_
      exact within_wordArgument.bind fun shared => within_eat.bind fun _ => hmore _
    · refine advances_marker.answers rfl fun r => within_wordArgument.bind fun found => ?_
      exact .ite within_fail_bind (within_eat.bind fun _ => within_pure)
    · exact answers_fail
    · exact answers_fail

theorem advances_table : Advances R table := by
  refine advances_marker.bind fun r ts => within_expectCount.bind fun _ => ?_
  refine within_wordArgument.bind fun name => ?_
  refine (progress_tableSets.within (fun n _ => tableSets name r.1 n) (fun _ _ => rfl) ()).bind
    fun _ => ?_
  exact within_pure

theorem advances_sharedSet : Advances R sharedSet := by
  refine advances_marker.bind fun r ts => within_expectCount.bind fun _ => ?_
  refine within_wordArgument.bind fun name => within_frequencyArgument.bind fun frequency => ?_
  refine within_declarations.bind fun decls => (advances_marker.within ts).bind fun r' => ?_
  refine within_wordArgument.bind fun found => ?_
  exact .ite within_fail_bind (within_eat.bind fun _ => within_pure)

theorem within_condition : Within R ts (condition directive operand loc) := by
  unfold condition
  split
  · exact within_pure
  · exact within_fail

theorem onward_expectDirective {opened : Loc} :
    Within .onward ts (expectDirective name opened) := by
  refine fun c hc => answers_next?_bind answers_fail fun t us _ => ?_
  split
  · cases ‹some t = none›
  · exact .ite within_pure within_fail
  · exact within_fail

theorem progress_conditional (wrap : Condition → List α → List α → Loc → α)
    (hbranch : ∀ s, Within .onward ts (branch s)) :
    Progress .onward ts fun again (i : String × String × Loc × σ) =>
      conditionalRound branch wrap
        (fun directive operand loc s => again (directive, operand, loc, s))
        i.1 i.2.1 i.2.2.1 i.2.2.2 := by
  rintro again c hc hagain ⟨directive, operand, loc, s⟩
  refine (within_condition hc).bind fun cond c₁ h₁ => ?_
  have hc₁ : c₁.rest <:+ c.rest := (within_condition (R := .onward) hc).moves h₁
  refine (hbranch s (hc₁.trans hc)).bind fun r c₂ h₂ => ?_
  have hc₂ : c₂.rest <:+ c.rest := ((hbranch s (hc₁.trans hc)).moves h₂).trans hc₁
  refine answers_next?_bind answers_fail fun t us hrest => ?_
  have hus : us <:+ ts := (suffix_of_cons hrest).trans (hc₂.trans hc)
  split
  · cases ‹some t = none›
  · exact within_pure
  · refine Within.bind (fun c' hc' => hbranch _ (hc'.trans hus)) fun r' => ?_
    exact onward_expectDirective.bind fun _ => within_pure
  · refine Within.bind (fun c' hc' => hagain _ c' (behind_of_suffix hc₂ hrest hc')) fun r' => ?_
    exact within_pure
  · exact within_fail
  · exact within_fail

/-- A conditional answers, and so does what follows it, if all its branches do. -/
theorem answers_conditional {f : Condition × List α × List α × σ → Reader β}
    (hrest : c.rest = ⟨.directive directive operand, loc⟩ :: ts)
    (hopens : opensConditional directive) (hbranch : ∀ s, Within R ts (branch s))
    (hf : ∀ b, Within R ts (f b)) : Answers R (skip >>= fun _ =>
      (withFuel fun fuel => conditional branch wrap fuel directive operand loc s) >>= f) c := by
  obtain ⟨rest, last⟩ := c
  obtain rfl : rest = ⟨.directive directive operand, loc⟩ :: ts := hrest
  have hconditional := (progress_conditional wrap fun s c hc => (hbranch s hc).onward).within
    (fun n i => conditional branch wrap n i.1 i.2.1 i.2.2.1 i.2.2.2) (fun _ _ => rfl)
    (directive, operand, loc, s)
  have hall : Within .onward ts ((withFuel fun fuel =>
      conditional branch wrap fuel directive operand loc s) >>= f) :=
    hconditional.bind fun b c hc => (hf b hc).onward
  refine ⟨fun a c' h => ?_, fun e he => (hall (c := ⟨ts, last⟩) suffix_rfl).faults he⟩
  obtain ⟨b, c₁, hread, hrest⟩ := reads_bind.1 (reads_skip_bind.1 h)
  have hc₁ : c₁.rest <:+ ts := (hconditional (c := ⟨ts, last⟩) suffix_rfl).moves hread
  refine R.trans
    (R.conditional loc hopens (fun s c₂ _ _ hc₂ hb => ?_) (readsConditional_of_reads hread))
    ((hf b hc₁).moves hrest)
  exact (hbranch s hc₂).moves hb

theorem answers_fragmentsRound {again : Terminator → Nat → Reader (List Fragment × Stop)}
    {arguments : Loc → Reader (List (List Fragment) × Loc)}
    (hagain : ∀ term depth c', Behind c c' → Answers .onward (again term depth) c')
    (harguments : ∀ loc c', Behind c c' → Answers .onward (arguments loc) c') :
    Answers .onward (fragmentsRound again arguments term depth) c := by
  obtain ⟨_ | ⟨t, ts⟩, last⟩ := c
  · exact .look rfl answers_pure
  · have hagain' (depth : Nat) : Within .onward ts (again term depth) :=
      fun c' hc' => hagain term depth c' ⟨t, ts, rfl, hc'⟩
    have hmore (f : Fragment) (depth : Nat) : Within .onward ts (do
        let r ← again term depth
        return (f :: r.1, r.2)) := (hagain' depth).bind fun _ => within_pure
    have hargs {f : List (List Fragment) × Loc → Reader (List Fragment × Stop)}
        (hf : ∀ r, Within .onward ts (f r)) : Answers .onward (do
          skip
          expect .lparen
          f (← arguments t.loc)) ⟨t :: ts, last⟩ := by
      refine answers_skip_bind rfl (suffix_cons t ts) (within_expect.bind fun _ => ?_)
      exact Within.bind (fun c' hc' => harguments t.loc c' ⟨t, ts, rfl, hc'⟩) hf
    have hskip (f : Fragment) (depth : Nat) : Answers .onward (do
        skip
        let r ← again term depth
        return (f :: r.1, r.2)) ⟨t :: ts, last⟩ :=
      answers_skip_bind rfl (suffix_cons t ts) (hmore f depth)
    refine .look rfl (.ite answers_pure ?_)
    obtain ⟨token, loc⟩ := t
    cases token with
    | directive name operand =>
      dsimp only
      split
      · next hopens =>
        refine answers_conditional rfl hopens (fun _ => ?_) fun _ => hmore _ _
        exact (hagain' 0).bind fun _ => within_pure
      · exact .ite answers_pure answers_fail
    | word name =>
      refine .ite ?_ (.ite ?_ (.ite ?_ (hskip _ _)))
      · refine answers_skip_bind rfl (suffix_cons _ ts) ?_
        exact within_expect.bind fun _ => hmore _ _
      · exact hargs fun r => .ite within_fail_bind (within_eat.bind fun _ => hmore _ _)
      · exact hargs fun r => hmore _ _
    | delim d => exact .ite (hskip _ _) (.ite (.ite answers_fail_bind (hskip _ _)) (hskip _ _))
    | _ => exact hskip _ _

theorem answers_argumentsRound {argument : Reader (List Fragment × Stop)}
    {again : Bool → Reader (List (List Fragment) × Loc)} {first : Bool}
    (hargument : Answers .onward argument c)
    (hagain : ∀ first c', Behind c c' → Answers .onward (again first) c') :
    Answers .onward (argumentsRound argument again loc first) c := by
  refine hargument.bind fun r c₁ h₁ => .ite answers_fail_bind ?_
  refine answers_next?_bind answers_fail fun t us hrest => ?_
  refine .ite within_pure (.ite within_fail_bind (.ite within_pure ?_))
  refine Within.bind (fun c' hc' => hagain false c' ?_) fun _ => within_pure
  exact behind_of_suffix (hargument.moves h₁) hrest hc'

/-- Fragments ask for arguments, and arguments for fragments from the same token on. So it takes two
units of fuel for each token. -/
theorem answers_fragments (n : Nat) (c : Cursor) :
    (2 * c.rest.length < n → ∀ term depth, Answers .onward (fragments n term depth) c) ∧
      (2 * c.rest.length + 1 < n → ∀ loc first, Answers .onward (arguments n loc first) c) := by
  induction n generalizing c with
  | zero => exact ⟨fun h => by omega, fun h => by omega⟩
  | succ n ih =>
    have hlength {c' : Cursor} (h : Behind c c') : c'.rest.length < c.rest.length := by
      obtain ⟨t, ts, hrest, hsuffix⟩ := h
      have := hsuffix.length_le
      simp only [hrest, length_cons]
      omega
    constructor
    · intro hn term depth
      refine answers_fragmentsRound (fun term depth c' hc' => ?_) fun loc c' hc' => ?_
      · exact (ih c').1 (by have := hlength hc'; omega) term depth
      · exact (ih c').2 (by have := hlength hc'; omega) loc true
    · intro hn loc first
      refine answers_argumentsRound ((ih c).1 (by omega) .argument 0) fun first c' hc' => ?_
      exact (ih c').2 (by have := hlength hc'; omega) loc first

theorem within_terminated : Within R ts (terminated term loc fault) := by
  refine Within.bind (fun c hc => ⟨fun r c' h => ?_, ?_⟩) fun r => ?_
  · rw [reads_withFuel] at h
    exact R.fragments h
  · have hfragments : Answers .onward (withFuel fun fuel => fragments fuel term 0) c :=
      .look rfl ((answers_fragments _ c).1 (by omega) term 0)
    exact hfragments.faults
  · exact .ite within_fail_bind within_pure

theorem within_parameterLength : Within R ts (parameterLength loc name) := by
  refine within_test (fun _ => rfl) (fun {at_ us last} _ => ?_) within_pure
  refine answers_skip_bind rfl (R.token us rfl) fun c hc => ?_
  obtain ⟨_ | ⟨⟨token, loc'⟩, vs⟩, last'⟩ := c
  · exact .look rfl answers_fail
  · cases token with
    | int text =>
      refine Answers.bind ⟨fun a c' h => ?_, fun e he => by cases he⟩ fun a c' h => ?_
      · obtain ⟨-, rfl⟩ := reads_next?.1 h
        exact R.token vs rfl
      · obtain ⟨rfl, rfl⟩ := reads_next?.1 h
        dsimp only [head?_cons, Option.map_some]
        split
        · exact (within_expect.bind fun _ => within_pure) suffix_rfl
        · exact answers_fail
    | _ => exact ⟨fun a c' h => by simp at h, fun e he => by cases he; exact ⟨_, _, rfl⟩⟩

theorem within_peekWord_skip {p : String → Cursor → Prop} [∀ word c, Decidable (p word c)]
    {f : String → Unit → Reader α} {g : String → Reader α} (hf : ∀ word, Within R ts (f word ()))
    (hg : ∀ word, Within R ts (g word)) :
    Within R ts (peekWord >>= fun word => get >>= fun c =>
      if p word c then skip >>= f word else g word) := by
  refine fun c hc => (within_peekWord hc).bind fun word c₁ hword => .look rfl ?_
  obtain ⟨loc, us, hus, rfl⟩ := reads_peekWord.1 hword
  refine .ite (answers_skip_bind hus (R.token us rfl) fun c' hc' => ?_) (hg word hc)
  exact hf word (hc'.trans ((suffix_of_cons hus).trans hc))

theorem within_parameter : Within R ts parameter := by
  refine within_here.bind fun loc => within_test (fun _ => rfl)
    (fun {_ us _} hus => answers_skip_bind rfl (R.token us rfl) fun c hc => ?_) fun c hc => ?_
  all_goals
    refine within_peekWord_skip (fun word => ?_) (fun word => ?_) (suffix_refl c.rest)
    · refine within_expect.bind fun _ => within_expectWord.bind fun type => ?_
      refine within_expect.bind fun _ => within_expectWord.bind fun name => ?_
      have hplain (modifier : Modifier) (value : Option SystemValue) : Within R c.rest (do
          return ⟨ValueType.ofName type, name, ← parameterLength loc name, modifier, value, loc⟩ :
            Reader Param) := within_parameterLength.bind fun _ => within_pure
      split
      · exact hplain .in_ none
      · exact hplain .out none
      · exact hplain .inout none
      · split
        · exact within_fail
        · exact hplain .in_ _
    · exact within_expectWord.bind fun type => within_expectWord.bind fun name =>
        within_parameterLength.bind fun _ => within_pure

theorem progress_parameters : Progress R ts fun again (_ : Unit) => parametersRound (again ()) := by
  intro again c hc hagain _
  refine (within_parameter hc).bind fun p c₁ h₁ => ?_
  have hc₁ := R.suffix ((within_parameter (R := R) hc).moves h₁)
  refine .look rfl ?_
  split
  · next hcomma =>
    cases hrest : c₁.rest with
    | nil => simp [hrest] at hcomma
    | cons t us =>
      have htoken : t.token = .delim .comma := by simpa [hrest] using hcomma
      refine answers_skip_bind hrest (R.token us (by rw [htoken]; rfl)) ?_
      refine Within.bind (fun c' hc' => hagain () c' ?_) fun _ => within_pure
      exact behind_of_suffix hc₁ hrest hc'
  · exact answers_pure

theorem advances_function : Advances R function := by
  refine .after (fun _ => within_here) fun loc => advances_expectWord.bind fun returns ts => ?_
  refine within_expectWord.bind fun name => within_expect.bind fun _ => ?_
  have hbody (params : List Param) : Within R ts (do
      expect .rparen
      expect .lbrace
      let body ← terminated .body loc (.unclosedBody name)
      expect .rbrace
      return ⟨name, ValueType.ofName returns, params, body, loc⟩ : Reader Function) :=
    within_expect.bind fun _ => within_expect.bind fun _ =>
      within_terminated.bind fun _ => within_expect.bind fun _ => within_pure
  refine within_isNext.bind fun b => .ite (within_pure.bind hbody) ?_
  exact (progress_parameters.within (fun n _ => parameters n) (fun _ _ => rfl) ()).bind hbody

theorem advances_global : Advances R global := by
  refine .after (fun _ => within_here) fun loc => .after (fun _ => within_terminated) fun body => ?_
  exact advances_expect.bind fun _ ts => within_pure

theorem progress_members : Progress R ts fun again (_ : Unit) => membersRound (again ()) := by
  intro again c _ hagain _
  obtain ⟨_ | ⟨⟨token, loc⟩, us⟩, last⟩ := c
  · exact .look rfl answers_pure
  · have hagain' : Within R us (again ()) := fun c' hc' => hagain () c' ⟨_, us, rfl, hc'⟩
    refine .look rfl ?_
    dsimp only
    split
    · exact answers_pure
    · split
      · next name operand hopens =>
        refine answers_conditional rfl hopens (fun _ => ?_) fun _ => ?_
        · exact hagain'.bind fun _ => within_pure
        · exact hagain'.bind fun _ => within_pure
      · exact .ite answers_pure answers_fail
    · refine advances_marker.answers rfl fun r => within_expectCount.bind fun _ => ?_
      refine within_wordArgument.bind fun type => within_nameArgument.bind fun r' => ?_
      refine within_wordArgument.bind fun semantic => within_eat.bind fun _ => ?_
      exact hagain'.bind fun _ => within_pure
    · exact answers_fail

theorem advances_struct : Advances R struct := by
  refine advances_marker.bind fun r ts => within_wordArgument.bind fun name => ?_
  refine within_expectCount.bind fun _ => within_expect.bind fun _ => ?_
  refine (progress_members.within (fun n _ => members n) (fun _ _ => rfl) ()).bind fun ms => ?_
  exact within_expect.bind fun _ => within_eat.bind fun _ => within_pure

theorem within_positive : Within R ts (positive loc arg) :=
  within_integerArgument.bind fun _ => .ite within_fail_bind within_pure

end Progress
end ShaderDialect.Reader
