import Mathlib.Tactic.Simproc.ExistsAndEq
import ShaderDialect.Program.Reader

/-! Successful readings: what the parts of a reader that answers have answered. -/
namespace ShaderDialect.Reader

variable {α β : Type} {a : α} {c c' : Cursor} {u : Unit} {d : Delimiter}
  {directive operand : String} {loc : Loc} {cond : Condition}

/-- A reader answers and leaves the second cursor. -/
def Reads (x : Reader α) (c : Cursor) (a : α) (c' : Cursor) : Prop := x.run c = .ok (a, c')

@[simp] theorem reads_pure {b : α} : Reads (pure a) c b c' ↔ b = a ∧ c' = c := by
  change Except.ok (a, c) = .ok (b, c') ↔ _
  simp [eq_comm]

@[simp] theorem reads_bind {x : Reader β} {f : β → Reader α} :
    Reads (x >>= f) c a c' ↔ ∃ b c₁, Reads x c b c₁ ∧ Reads (f b) c₁ a c' := by
  simp only [Reads, StateT.run_bind]
  cases h : x.run c with
  | error e => simp [bind, Except.bind]
  | ok r =>
    constructor
    · intro hf
      exact ⟨r.1, r.2, rfl, hf⟩
    · rintro ⟨b, c₁, hr, hf⟩
      cases hr
      exact hf

@[simp] theorem reads_map {x : Reader β} {f : β → α} :
    Reads (f <$> x) c a c' ↔ ∃ b, Reads x c b c' ∧ a = f b := by
  rw [map_eq_pure_bind, reads_bind]
  constructor
  · rintro ⟨b, c₁, hx, hp⟩
    obtain ⟨rfl, rfl⟩ := reads_pure.1 hp
    exact ⟨b, hx, rfl⟩
  · rintro ⟨b, hx, rfl⟩
    exact ⟨b, c', hx, reads_pure.2 ⟨rfl, rfl⟩⟩

@[simp] theorem reads_fail {loc : Loc} {fault : SourceFault} :
    ¬ Reads (fail loc fault : Reader α) c a c' := by
  intro h
  cases h

@[simp] theorem reads_exhausted : ¬ Reads (exhausted : Reader α) c a c' := by
  intro h
  cases h

@[simp] theorem reads_get {r : Cursor} : Reads get c r c' ↔ r = c ∧ c' = c := by
  change Except.ok (c, c) = .ok (r, c') ↔ _
  simp [eq_comm]

theorem reads_get_bind {f : Cursor → Reader α} : Reads (get >>= f) c a c' ↔ Reads (f c) c a c' :=
  Iff.rfl

@[simp] theorem reads_set {r : Cursor} : Reads (set r) c u c' ↔ c' = r := by
  change Except.ok ((), r) = .ok (u, c') ↔ _
  simp [eq_comm]

@[simp] theorem reads_skip : Reads skip c u c' ↔ c' = { c with rest := c.rest.tail } := by
  change Except.ok ((), { c with rest := c.rest.tail }) = .ok (u, c') ↔ _
  simp [eq_comm]

theorem reads_skip_bind {f : Unit → Reader α} :
    Reads (skip >>= f) c a c' ↔ Reads (f ()) { c with rest := c.rest.tail } a c' := by
  simp only [reads_bind, reads_skip]
  exact ⟨fun ⟨_, _, hc, h⟩ => hc ▸ h, fun h => ⟨(), _, rfl, h⟩⟩

@[simp] theorem reads_peek? {t : Option Token} :
    Reads peek? c t c' ↔ t = c.rest.head?.map Placed.token ∧ c' = c := by
  simp [peek?, and_comm]

@[simp] theorem reads_here {loc : Loc} :
    Reads here c loc c' ↔ loc = (c.rest.head?.map Placed.loc).getD c.last ∧ c' = c := by
  simp [here, and_comm]

@[simp] theorem reads_next? {t : Option Placed} :
    Reads next? c t c' ↔ t = c.rest.head? ∧ c' = { c with rest := c.rest.tail } := by
  obtain ⟨rest, last⟩ := c
  cases rest <;> simp [next?, and_comm]

@[simp] theorem reads_isNext {d : Delimiter} {b : Bool} :
    Reads (isNext d) c b c' ↔ b = (c.rest.head?.map Placed.token == some (.delim d)) ∧ c' = c := by
  simp [isNext, and_comm]

@[simp] theorem reads_isNextWord {name : String} {b : Bool} :
    Reads (isNextWord name) c b c' ↔
      b = (c.rest.head?.map Placed.token == some (.word name)) ∧ c' = c := by
  simp [isNextWord, and_comm]

@[simp] theorem reads_withFuel {read : Nat → Reader α} :
    Reads (withFuel read) c a c' ↔ Reads (read (2 * c.rest.length + 2)) c a c' := by
  simp [withFuel]

theorem reads_expect : Reads (expect d) c u c' ↔
    ∃ loc ts, c.rest = ⟨.delim d, loc⟩ :: ts ∧ c' = { c with rest := ts } := by
  obtain ⟨rest, last⟩ := c
  cases rest with
  | nil => simp [expect]
  | cons t ts =>
    obtain ⟨token, loc⟩ := t
    by_cases h : token = .delim d <;> simp [expect, h]

theorem reads_expect_bind {f : Unit → Reader α} :
    Reads (expect d >>= f) c a c' ↔
      ∃ loc ts, c.rest = ⟨.delim d, loc⟩ :: ts ∧ Reads (f ()) { c with rest := ts } a c' := by
  constructor
  · intro h
    obtain ⟨_, _, hexpect, h⟩ := reads_bind.1 h
    obtain ⟨loc, ts, hrest, rfl⟩ := reads_expect.1 hexpect
    exact ⟨loc, ts, hrest, h⟩
  · rintro ⟨loc, ts, hrest, h⟩
    exact reads_bind.2 ⟨(), _, reads_expect.2 ⟨loc, ts, hrest, rfl⟩, h⟩

theorem reads_eat : Reads (eat d) c u c' ↔
    (∃ loc ts, c.rest = ⟨.delim d, loc⟩ :: ts ∧ c' = { c with rest := ts }) ∨
      (c.rest.head?.map Placed.token ≠ some (.delim d) ∧ c' = c) := by
  obtain ⟨rest, last⟩ := c
  cases rest with
  | nil => simp [eat]
  | cons t ts =>
    obtain ⟨token, loc⟩ := t
    by_cases h : token = .delim d <;> simp [eat, h]

theorem reads_condition :
    Reads (condition directive operand loc) c cond c' ↔
      Condition.read directive operand = .ok cond ∧ c' = c := by
  unfold condition
  cases Condition.read directive operand <;> simp [eq_comm]

theorem reads_expectDirective {name : String} {opened : Loc} :
    Reads (expectDirective name opened) c u c' ↔
      ∃ operand loc ts, c.rest = ⟨.directive name operand, loc⟩ :: ts ∧
        c' = { c with rest := ts } := by
  obtain ⟨rest, last⟩ := c
  cases rest with
  | nil => simp [expectDirective]
  | cons t ts =>
    obtain ⟨token, loc⟩ := t
    cases token with
    | directive found operand =>
      by_cases h : found = name <;> simp [expectDirective, h]
    | _ => simp [expectDirective]

section Conditional
variable {σ : Type} {branch : σ → Reader (List α × σ)}
  {wrap : Condition → List α → List α → Loc → α} {s s' : σ} {yes no : List α}

/-- A conditional as it is read: its first branch and an end, another branch or, after `#elif`, a
further conditional. -/
inductive ReadsConditional {σ : Type} (branch : σ → Reader (List α × σ))
    (wrap : Condition → List α → List α → Loc → α) : (directive operand : String) → σ → Cursor →
      Condition → List α → List α → σ → Cursor → Prop
  | endif {directive operand rest : String} {at_ : Loc} {s s' : σ} {cond : Condition}
      {yes : List α} {c c₁ : Cursor} {ts : List Placed}
      (hcond : Condition.read directive operand = .ok cond)
      (hyes : Reads (branch s) c (yes, s') c₁)
      (hend : c₁.rest = ⟨.directive "endif" rest, at_⟩ :: ts) :
      ReadsConditional branch wrap directive operand s c cond yes [] s' { c₁ with rest := ts }
  | otherwise {directive operand rest rest' : String} {at_ at' : Loc} {s s₁ s' : σ}
      {cond : Condition} {yes no : List α} {c c₁ c₂ : Cursor} {ts us : List Placed}
      (hcond : Condition.read directive operand = .ok cond)
      (hyes : Reads (branch s) c (yes, s₁) c₁)
      (helse : c₁.rest = ⟨.directive "else" rest, at_⟩ :: ts)
      (hno : Reads (branch s₁) { c₁ with rest := ts } (no, s') c₂)
      (hend : c₂.rest = ⟨.directive "endif" rest', at'⟩ :: us) :
      ReadsConditional branch wrap directive operand s c cond yes no s' { c₂ with rest := us }
  | elif {directive operand rest : String} {at_ : Loc} {s s₁ s' : σ} {cond cond' : Condition}
      {yes yes' no' : List α} {c c₁ c' : Cursor} {ts : List Placed}
      (hcond : Condition.read directive operand = .ok cond)
      (hyes : Reads (branch s) c (yes, s₁) c₁)
      (helif : c₁.rest = ⟨.directive "elif" rest, at_⟩ :: ts)
      (hno : ReadsConditional branch wrap "if" rest s₁ { c₁ with rest := ts } cond'
      yes' no' s' c') :
      ReadsConditional branch wrap directive operand s c cond yes [wrap cond' yes' no' at_] s' c'

theorem readsConditional_of_reads
    (h : Reads (withFuel fun fuel => conditional branch wrap fuel directive operand loc s) c
      (cond, yes, no, s') c') :
    ReadsConditional branch wrap directive operand s c cond yes no s' c' := by
  rw [reads_withFuel] at h
  generalize 2 * c.rest.length + 2 = fuel at h
  -- The fuel falls along a chain of `#elif`, so the induction is on it.
  induction fuel generalizing directive operand loc s c cond yes no with
  | zero => simp [conditional] at h
  | succ fuel ih =>
    simp only [conditional, conditionalRound, reads_bind, reads_condition] at h
    obtain ⟨cond', c₀, ⟨hcond, rfl⟩, ⟨yes', s₁⟩, c₁, hyes, t, c₂, hnext, h⟩ := h
    obtain ⟨rfl, rfl⟩ := reads_next?.1 hnext
    obtain ⟨_ | ⟨t, ts⟩, last⟩ := c₁
    · simp at h
    simp only [List.head?_cons, List.tail_cons] at h
    split at h
    · simp at h
    · rename_i heq
      cases heq
      simp only [reads_pure, Prod.mk.injEq] at h
      obtain ⟨⟨rfl, rfl, rfl, rfl⟩, rfl⟩ := h
      exact .endif hcond hyes rfl
    · rename_i heq
      cases heq
      simp only [reads_bind, reads_expectDirective, reads_pure, Prod.mk.injEq] at h
      obtain ⟨⟨no', s₂⟩, c₂, hno, _, _, ⟨rest', at', ts', hend, rfl⟩, ⟨rfl, rfl, rfl, rfl⟩, rfl⟩ :=
        h
      exact .otherwise hcond hyes rfl hno hend
    · rename_i heq
      cases heq
      simp only [reads_bind, reads_pure, Prod.mk.injEq] at h
      obtain ⟨⟨cond₂, yes₂, no₂, s₂⟩, c₂, helif, ⟨rfl, rfl, rfl, rfl⟩, rfl⟩ := h
      exact .elif hcond hyes rfl (ih helif)
    · simp at h
    · simp at h

/-- What holds of the branches that are read where `Here` holds of what is left does so of both
branches of a conditional. -/
theorem ReadsConditional.forall_branches
    (h : ReadsConditional branch wrap directive operand s c cond yes no s' c')
    (Here : List Placed → Prop) (motive : List α → Prop) (hc : Here c.rest) (hnil : motive [])
    (hskip : ∀ {t ts}, Here (t :: ts) → Here ts)
    (hwrap : ∀ cond yes no loc, motive yes → motive no → motive [wrap cond yes no loc])
    (hbranch : ∀ {s as s' c c'}, Reads (branch s) c (as, s') c' → Here c.rest →
      Here c'.rest ∧ motive as) : Here c'.rest ∧ motive yes ∧ motive no := by
  induction h with
  | endif _ hyes hend =>
    obtain ⟨hhere, hyes⟩ := hbranch hyes hc
    exact ⟨hskip (hend ▸ hhere), hyes, hnil⟩
  | otherwise _ hyes helse hno hend =>
    obtain ⟨hhere, hyes⟩ := hbranch hyes hc
    obtain ⟨hhere, hno⟩ := hbranch hno (hskip (helse ▸ hhere))
    exact ⟨hskip (hend ▸ hhere), hyes, hno⟩
  | elif _ hyes helif _ ih =>
    obtain ⟨hhere, hyes⟩ := hbranch hyes hc
    obtain ⟨hhere, hyes', hno'⟩ := ih (hskip (helif ▸ hhere))
    exact ⟨hhere, hyes, hwrap _ _ _ _ hyes' hno'⟩

end Conditional
end ShaderDialect.Reader
