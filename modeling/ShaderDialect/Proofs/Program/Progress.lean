import ShaderDialect.Proofs.Program.Grammar

/-! Reading a program comes to an end. Each round of each loop takes a token before it asks for the
next round, and so the fuel for the tokens that are left is always enough. -/
namespace ShaderDialect

namespace Reader
variable {R : Course} {α ι : Type} {ts : List Placed} {c c' : Cursor} {p : Pending}

theorem within_noPending : Within R ts (noPending p) := by
  unfold noPending
  split
  · exact within_fail
  · exact within_pure

theorem answers_noPending_bind {f : Unit → Reader α} (hf : Answers R (f ()) c) :
    Answers R (noPending p >>= f) c := by
  refine (within_noPending List.suffix_rfl).bind fun _ c₁ h => ?_
  obtain rfl := reads_noPending h
  exact hf

theorem within_blockHeader {loc : Loc} {words : List String} {features : FeatureSet}
    {name : Option String} : Within R ts (blockHeader loc words features name) := by
  induction words generalizing features name with
  | nil => exact within_pure
  | cons word words ih =>
    rw [blockHeader]
    refine .ite ?_ (.ite within_fail ih)
    split
    · exact ih
    · exact within_fail

theorem advances_prefixMarker : Advances .onward (prefixMarker p) := by
  rw [prefixMarker_eq, map_eq_pure_bind]
  exact advances_entryMark.bind fun _ _ => within_pure

theorem advances_declaration : Advances .onward (declaration p) := by
  have hglobal : Advances .onward (do
      noPending p
      return (← global, p) : Reader (Item × Pending)) :=
    .after (fun _ => within_noPending) fun _ => advances_global.bind fun _ _ => within_pure
  -- It does not matter here what becomes of the function, as long as no token is given back.
  have hadvances {k : Function → Reader (Item × Pending)} (hk : ∀ f ts, Within .onward ts (k f)) :
      Advances .onward (do
        let c ← get
        let rest := c.rest.dropWhile (·.token == .word "inline")
        if isFunction rest then
          set { c with rest }
          k (← function)
        else
          noPending p
          return (← global, p)) := by
    have hfunction := advances_function.bind hk
    refine ⟨fun ts c hc => .look rfl ?_, fun c a c' h => ?_⟩
    · dsimp only
      split
      · refine Answers.bind ⟨fun _ c₁ h => ?_, fun e he => by cases he⟩ fun _ c₁ h => ?_
        · obtain rfl := reads_set.1 h
          exact List.dropWhile_suffix _
        · exact hfunction.within _ List.suffix_rfl
      · exact hglobal.within ts hc
    · obtain ⟨c₀, c₁, hget, hread⟩ := reads_bind.1 h
      obtain ⟨rfl, rfl⟩ := reads_get.1 hget
      dsimp only at hread
      split at hread
      · obtain ⟨_, c₂, hset, hread⟩ := reads_bind.1 hread
        obtain rfl := reads_set.1 hset
        obtain ⟨t, us, hrest, hsuffix⟩ := hfunction.behind hread
        exact behind_of_suffix (List.dropWhile_suffix _) hrest hsuffix
      · exact hglobal.behind hread
  refine hadvances fun f ts => ?_
  split
  · exact within_pure
  · exact within_noPending.bind fun _ => within_pure

theorem progress_items : Progress .onward ts fun again (i : Context × Pending) =>
    itemsRound (fun ctx p => again (ctx, p)) i.1 i.2 := by
  rintro again c _ hagain ⟨ctx, p⟩
  obtain ⟨_ | ⟨⟨token, loc⟩, us⟩, last⟩ := c
  · exact .look rfl answers_pure
  · have hagain' (ctx : Context) (p : Pending) : Within .onward us (again (ctx, p)) :=
      fun c' hc' => hagain (ctx, p) c' ⟨_, us, rfl, hc'⟩
    have hmore (i : Item) (p : Pending) : Within .onward us (do
        let r ← again (ctx, p)
        return (i :: r.1, r.2)) := (hagain' ctx p).bind fun _ => within_pure
    refine .look rfl ?_
    dsimp only
    split
    · next name operand =>
      split
      · next hopens =>
        refine answers_conditional rfl hopens (fun p => ?_) fun r => hmore _ _
        exact (hagain' _ p).bind fun _ => within_pure
      refine .ite answers_pure ?_
      split
      · exact answers_fail
      · refine .ite answers_fail_bind (.ite answers_fail_bind ?_)
        refine answers_skip_bind rfl (List.suffix_cons _ us) (within_blockHeader.bind fun r => ?_)
        split
        · exact within_fail
        · refine (hagain' _ p).bind fun r' => within_noPending.bind fun _ => ?_
          split
          · exact within_fail
          · split
            · exact onward_skip.bind fun _ => hmore _ _
            · exact within_fail
    · exact answers_skip_bind rfl (List.suffix_cons _ us) (hagain' ctx p)
    · exact answers_noPending_bind (advances_struct.answers rfl fun d => hmore _ _)
    · refine answers_noPending_bind (.ite answers_fail_bind ?_)
      exact advances_table.answers rfl fun d => hmore _ _
    · refine answers_noPending_bind (.ite answers_fail_bind ?_)
      exact advances_sharedSet.answers rfl fun d => hmore _ _
    · exact advances_prefixMarker.answers rfl fun q => hagain' ctx q
    · exact advances_prefixMarker.answers rfl fun q => hagain' ctx q
    · exact advances_prefixMarker.answers rfl fun q => hagain' ctx q
    · exact advances_declaration.answers rfl fun r => hmore _ _
    · exact answers_noPending_bind (advances_global.answers rfl fun i => hmore _ _)

/-- A loop that is made of rounds, each of which takes a token before it asks for the next one. It
answers from any of the tokens on, so that it never runs out of fuel. -/
structure Loop (ts : List Placed) (run : Nat → ι → Reader α)
    (round : (ι → Reader α) → ι → Reader α) : Prop where
  rounds : ∀ fuel i, run (fuel + 1) i = round (run fuel) i
  progress : Progress .onward ts round
  answers : ∀ i, Within .onward ts (withFuel (run · i))

theorem Progress.loop {run : Nat → ι → Reader α} {round : (ι → Reader α) → ι → Reader α}
    (h : Progress .onward ts round) (hrun : ∀ fuel i, run (fuel + 1) i = round (run fuel) i) :
    Loop ts run round := ⟨hrun, h, h.within run hrun⟩

theorem onward_program : Within .onward ts program := by
  refine (progress_items.within (fun n i => items n i.1 i.2) (fun _ _ => rfl) ({}, {})).bind
    fun r => ?_
  dsimp only
  split
  · exact within_fail
  · exact within_noPending.bind fun _ => within_pure

end Reader

namespace Program
open Reader

theorem read_ends (file : String) (tokens : List Placed) :
    (∃ p, Program.read file tokens = .ok p) ∨
      ∃ loc fault, Program.read file tokens = .error (.source loc fault) := by
  have hanswers : ∀ last, Answers .onward program ⟨tokens, last⟩ :=
    fun last => onward_program List.suffix_rfl
  rw [Program.read]
  dsimp only
  cases hrun : program.run ⟨tokens, (tokens.getLast?.map (·.loc)).getD ⟨file, 1⟩⟩ with
  | ok r => exact .inl ⟨r.1, rfl⟩
  | error e =>
    obtain ⟨loc, fault, rfl⟩ := (hanswers _).faults hrun
    exact .inr ⟨loc, fault, rfl⟩

/-- Reading a program gives the program or a fault in the source. No loop runs out of fuel: each of
its rounds ends, or it has taken at least one of the tokens that are left when it asks for the next
one. This holds of items, members, sets, declarations, parameters and the arguments of markers; of
conditionals, whose branches are loops themselves; and of fragments and the arguments of calls,
which ask for each other. -/
theorem read_progress (file : String) (tokens : List Placed) :
    ((∃ p, Program.read file tokens = .ok p) ∨
      ∃ loc fault, Program.read file tokens = .error (.source loc fault)) ∧
    Loop tokens (fun n (i : Context × Pending) => Reader.items n i.1 i.2)
      (fun again i => itemsRound (fun ctx p => again (ctx, p)) i.1 i.2) ∧
    Loop tokens (fun n (_ : Unit) => members n) (fun again _ => membersRound (again ())) ∧
    Loop tokens (fun n (_ : Unit) => parameters n) (fun again _ => parametersRound (again ())) ∧
    (∀ name loc, Loop tokens (fun n (_ : Unit) => tableSets name loc n)
      (fun again _ => tableSetsRound name loc (again ()))) ∧
    (∀ finish start, Loop tokens (fun n (_ : Unit) => declarations finish start n)
      (fun again _ => declarationsRound finish start (again ()))) ∧
    (∀ name loc, Loop tokens (markerArguments name loc) (markerRound name loc)) ∧
    (∀ (α σ : Type) (branch : σ → Reader (List α × σ))
      (wrap : Condition → List α → List α → Loc → α), (∀ s, Within .onward tokens (branch s)) →
      Loop tokens (fun n (i : String × String × Loc × σ) =>
          conditional branch wrap n i.1 i.2.1 i.2.2.1 i.2.2.2)
        (fun again i => conditionalRound branch wrap
          (fun directive operand loc s => again (directive, operand, loc, s))
          i.1 i.2.1 i.2.2.1 i.2.2.2)) ∧
    (∀ again arguments c, (∀ term depth c', Behind c c' → Answers .onward (again term depth) c') →
      (∀ loc c', Behind c c' → Answers .onward (arguments loc) c') →
      ∀ term depth, Answers .onward (fragmentsRound again arguments term depth) c) ∧
    (∀ argument again c, Answers .onward argument c →
      (∀ first c', Behind c c' → Answers .onward (again first) c') →
      ∀ loc first, Answers .onward (argumentsRound argument again loc first) c) ∧
    (∀ term depth, Within .onward tokens (withFuel fun fuel => fragments fuel term depth)) ∧
    ∀ loc first, Within .onward tokens (withFuel fun fuel => arguments fuel loc first) := by
  refine ⟨read_ends file tokens, progress_items.loop fun _ _ => rfl,
    progress_members.loop fun _ _ => rfl, progress_parameters.loop fun _ _ => rfl,
    fun name loc => progress_tableSets.loop fun _ _ => rfl,
    fun finish start => progress_declarations.loop fun _ _ => rfl,
    fun name loc => progress_marker.loop fun _ _ => rfl,
    fun α σ branch wrap hbranch => (progress_conditional wrap hbranch).loop fun _ _ => rfl,
    fun again arguments c hagain harguments term depth => answers_fragmentsRound hagain harguments,
    fun argument again c hargument hagain loc first => answers_argumentsRound hargument hagain,
    fun term depth c _ => .look rfl ?_, fun loc first c _ => .look rfl ?_⟩
  · exact (answers_fragments _ c).1 (by omega) term depth
  · exact (answers_fragments _ c).2 (by omega) loc first

/-- A closing bracket in a conditional that nothing closes. -/
def strayTokens : List Placed :=
  [⟨.directive "if" "A", ⟨"m", 1⟩⟩, ⟨.word "float", ⟨"m", 2⟩⟩, ⟨.delim .rparen, ⟨"m", 2⟩⟩]

theorem read_progress_strayTokens :
    ∃ loc fault, Program.read "m" strayTokens = .error (.source loc fault) := by
  have hrefused : (Program.read "m" strayTokens).isOk = false := by decide +kernel
  obtain ⟨p, hp⟩ | hfault := (read_progress "m" strayTokens).1
  · simp [hp, Except.isOk, Except.toBool] at hrefused
  · exact hfault

end Program
end ShaderDialect
