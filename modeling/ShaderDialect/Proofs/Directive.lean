import ShaderDialect.Proofs.Reading

/-! Conditional directives decided on a list of tokens: directives and inactive branches are
dropped. A list that a reader takes for a conditional contributes exactly the branch that its
conditions pick. -/
namespace ShaderDialect.Directive
open List

/-- The branch of an open conditional that is being passed. -/
structure Branch where
  /-- Whether its own condition keeps it. -/
  active : Bool
  /-- Whether it or a branch before it is kept. -/
  taken : Bool
  /-- Whether it is the one after `#else`. -/
  final : Bool

/-- Whether tokens are kept inside these branches. -/
def keeps (open_ : List Branch) : Bool := open_.all Branch.active

/-- The name and the operand of a conditional directive. -/
def conditional? : Token → Option (String × String)
  | .directive name operand =>
    if Reader.opensConditional name || Reader.endsBranch name then some (name, operand) else none
  | _ => none

variable (defined : String → Bool) {t : Placed} {name operand : String}
  {ts kept kept' : List Placed} {cond : Condition}

/-- The branches that are open after a conditional directive. -/
def turn? (name operand : String) (open_ : List Branch) : Option (List Branch) :=
  if Reader.opensConditional name then
    (Condition.read name operand).toOption.map fun c =>
      ⟨c.eval defined, c.eval defined, false⟩ :: open_
  else
    match open_ with
    | [] => none
    | b :: outer =>
      if name = "endif" then some outer
      else if b.final then none
      else if name = "else" then some (⟨!b.taken, true, true⟩ :: outer)
      else
        (Condition.read "if" operand).toOption.map fun c =>
          ⟨!b.taken && c.eval defined, b.taken || c.eval defined, false⟩ :: outer

/-- The tokens that remain when exactly the given symbols are defined, if all conditionals that are
opened are closed. -/
def resolve : List Branch → List Placed → Option (List Placed)
  | open_, [] => if open_.isEmpty then some [] else none
  | open_, t :: ts =>
    match conditional? t.token with
    | some (name, operand) => (turn? defined name operand open_).bind (resolve · ts)
    | none => (resolve open_ ts).map fun kept => if keeps open_ then t :: kept else kept

/-- In every context a list of tokens contributes exactly the given ones. -/
def Yields (ts kept : List Placed) : Prop :=
  ∀ open_ rest, resolve defined open_ (ts ++ rest) =
    (resolve defined open_ rest).map fun r => if keeps open_ then kept ++ r else r

/-- The part of a conditional after its first branch contributes the given tokens unless a branch
before it is kept. -/
def Continues (ts kept : List Placed) : Prop :=
  ∀ b open_ rest, b.final = false → resolve defined (b :: open_) (ts ++ rest) =
    (resolve defined open_ rest).map fun r => if keeps open_ && !b.taken then kept ++ r else r

variable {defined}

variable (loc : Loc)

theorem resolve_directive (hn : Reader.opensConditional name || Reader.endsBranch name)
    (open_ : List Branch) (ts : List Placed) :
    resolve defined open_ (⟨.directive name operand, loc⟩ :: ts) =
      (turn? defined name operand open_).bind (resolve defined · ts) := by
  have hname : conditional? (.directive name operand) = some (name, operand) := if_pos hn
  rw [resolve, hname]

theorem Yields.resolve_eq (h : Yields defined ts kept) : resolve defined [] ts = some kept := by
  have hnil : resolve defined [] [] = some [] := rfl
  have h := h [] []
  rw [append_nil, hnil] at h
  simpa [keeps] using h

theorem yields_nil : Yields defined [] [] := by
  intro open_ rest
  simp

theorem Yields.append {us : List Placed} (h : Yields defined ts kept)
    (h' : Yields defined us kept') : Yields defined (ts ++ us) (kept ++ kept') := by
  intro open_ rest
  rw [append_assoc, h, h', Option.map_map]
  congr 1
  funext r
  by_cases hk : keeps open_ <;> simp [hk]

theorem yields_single (ht : conditional? t.token = none) : Yields defined [t] [t] := by
  intro open_ rest
  rw [singleton_append, resolve, ht]
  rfl

theorem Yields.cons (ht : conditional? t.token = none) (h : Yields defined ts kept) :
    Yields defined (t :: ts) (t :: kept) :=
  (yields_single ht).append h

theorem resolve_opening {loc : Loc} (hn : Reader.opensConditional name)
    (hc : Condition.read name operand = .ok cond) (open_ : List Branch) (ts : List Placed) :
    resolve defined open_ (⟨.directive name operand, loc⟩ :: ts) =
      resolve defined (⟨cond.eval defined, cond.eval defined, false⟩ :: open_) ts := by
  have hturn : turn? defined name operand open_ =
      (Condition.read name operand).toOption.map fun c =>
        ⟨c.eval defined, c.eval defined, false⟩ :: open_ := if_pos hn
  rw [resolve_directive loc (by rw [hn, Bool.true_or]), hturn, hc]
  rfl

theorem resolve_endif (operand : String) (loc : Loc) (b : Branch) (open_ : List Branch)
    (ts : List Placed) :
    resolve defined (b :: open_) (⟨.directive "endif" operand, loc⟩ :: ts) =
      resolve defined open_ ts :=
  resolve_directive loc (by decide) (b :: open_) ts

variable {b : Branch}

theorem resolve_elif (hb : b.final = false) (hc : Condition.read "if" operand = .ok cond)
    (open_ : List Branch) (ts : List Placed) :
    resolve defined (b :: open_) (⟨.directive "elif" operand, loc⟩ :: ts) =
      resolve defined
        (⟨!b.taken && cond.eval defined, b.taken || cond.eval defined, false⟩ :: open_) ts := by
  obtain ⟨active, taken, final⟩ := b
  cases hb
  have hturn : turn? defined "elif" operand (⟨active, taken, false⟩ :: open_) =
      (Condition.read "if" operand).toOption.map fun c =>
        ⟨!taken && c.eval defined, taken || c.eval defined, false⟩ :: open_ := rfl
  rw [resolve_directive loc (by decide), hturn, hc]
  rfl

theorem continues_endif (operand : String) (loc : Loc) :
    Continues defined [⟨.directive "endif" operand, loc⟩] [] := by
  intro b open_ rest _
  simp [resolve_endif]

theorem Yields.continues_else {no : List Placed} (h : Yields defined no kept)
    (operand operand' : String) (loc loc' : Loc) :
    Continues defined
      (⟨.directive "else" operand, loc⟩ :: (no ++ [⟨.directive "endif" operand', loc'⟩])) kept := by
  rintro ⟨active, taken, _⟩ open_ rest rfl
  have hturn : turn? defined "else" operand (⟨active, taken, false⟩ :: open_) =
      some (⟨!taken, true, true⟩ :: open_) := rfl
  rw [cons_append, append_assoc, resolve_directive loc (by decide), hturn, Option.bind_some,
    h, singleton_append, resolve_endif]
  simp [keeps, Bool.and_comm]

variable {yes tail : List Placed}

theorem Yields.continues_elif (hc : Condition.read "if" operand = .ok cond)
    (h : Yields defined yes kept) (h' : Continues defined tail kept') (loc : Loc) :
    Continues defined (⟨.directive "elif" operand, loc⟩ :: (yes ++ tail))
      (if cond.eval defined then kept else kept') := by
  intro b open_ rest hb
  rw [cons_append, append_assoc, resolve_elif _ hb hc, h, h' _ _ _ rfl, Option.map_map]
  congr 1
  funext r
  by_cases ht : b.taken <;> by_cases hv : cond.eval defined <;> simp [keeps, ht, hv]

theorem Yields.conditional (hn : Reader.opensConditional name)
    (hc : Condition.read name operand = .ok cond) (h : Yields defined yes kept)
    (h' : Continues defined tail kept') (loc : Loc) :
    Yields defined (⟨.directive name operand, loc⟩ :: (yes ++ tail))
      (if cond.eval defined then kept else kept') := by
  intro open_ rest
  rw [cons_append, append_assoc, resolve_opening hn hc, h, h' _ _ _ rfl, Option.map_map]
  congr 1
  funext r
  by_cases hv : cond.eval defined <;> simp [keeps, hv]

end ShaderDialect.Directive

namespace ShaderDialect.Reader
open Directive

/-- Between two cursors stand tokens that contribute some with the given property. -/
def Takes (defined : String → Bool) (c c' : Cursor) (P : List Placed → Prop) : Prop :=
  ∃ ts kept, c.rest = ts ++ c'.rest ∧ Yields defined ts kept ∧ P kept

variable {ts : List Placed}

section
variable {defined : String → Bool} {c c₁ c' : Cursor} {P Q R : List Placed → Prop}

theorem takes_nothing (h : P []) : Takes defined c c P := ⟨[], [], rfl, yields_nil, h⟩

theorem takes_token {t : Placed} (hrest : c.rest = t :: ts) (ht : conditional? t.token = none)
    (h : P [t]) : Takes defined c { c with rest := ts } P :=
  ⟨[t], [t], hrest, yields_single ht, h⟩

theorem Takes.append (h : Takes defined c c₁ P) (h' : Takes defined c₁ c' Q)
    (hR : ∀ {kept kept'}, P kept → Q kept' → R (kept ++ kept')) : Takes defined c c' R := by
  obtain ⟨ts, kept, hts, hyields, hP⟩ := h
  obtain ⟨us, kept', hus, hyields', hQ⟩ := h'
  exact ⟨ts ++ us, kept ++ kept', by simp [hts, hus], hyields.append hyields', hR hP hQ⟩

end

variable {α σ : Type} {defined : String → Bool} {branch : σ → Reader (List α × σ)}
  {wrap : Condition → List α → List α → Loc → α} (Prints : List α → List Placed → Prop)
  {directive operand : String} {cond : Condition}

/-- The parts of a conditional contribute what its branches are printed as, given this of the reader
of its branches. -/
theorem ReadsConditional.yields {s s' : σ} {c c' : Cursor} {yes no : List α}
    (h : ReadsConditional branch wrap directive operand s c cond yes no s' c')
    (hbranch : ∀ {s c₁ l s' c₂}, c₁.rest <:+ c.rest → Reads (branch s) c₁ (l, s') c₂ →
      Takes defined c₁ c₂ (Prints l)) (hnil : Prints [] [])
    (hwrap : ∀ {cond yes no loc kept kept'}, Prints yes kept → Prints no kept' →
      Prints [wrap cond yes no loc] (if cond.eval defined then kept else kept')) :
    Condition.read directive operand = .ok cond ∧
      ∃ ts tail kept kept', c.rest = ts ++ tail ++ c'.rest ∧ Yields defined ts kept ∧
        Continues defined tail kept' ∧ Prints yes kept ∧ Prints no kept' := by
  induction h with
  | @endif _ _ rest at_ _ _ _ _ _ _ us hcond hyes hend =>
    obtain ⟨ts, kept, hts, hyields, hprints⟩ := hbranch List.suffix_rfl hyes
    exact ⟨hcond, ts, _, kept, [], by simp [hts, hend], hyields, continues_endif rest at_, hprints,
      hnil⟩
  | @otherwise _ _ rest rest' at_ at' _ _ _ _ _ _ _ _ c₂ us vs hcond hyes helse hno hend =>
    obtain ⟨ts, kept, hts, hyields, hprints⟩ := hbranch List.suffix_rfl hyes
    obtain ⟨ns, kept', hns, hyields', hprints'⟩ :=
      hbranch ⟨ts ++ [⟨.directive "else" rest, at_⟩], by simp [hts, helse]⟩ hno
    refine ⟨hcond, ts, _, kept, kept', ?_, hyields, hyields'.continues_else rest rest' at_ at',
      hprints, hprints'⟩
    rw [hts, helse, show us = ns ++ c₂.rest from hns, hend]
    simp
  | @elif _ _ rest at_ _ _ _ _ _ _ _ _ _ _ c' us hcond hyes helif hno ih =>
    obtain ⟨ts, kept, hts, hyields, hprints⟩ := hbranch List.suffix_rfl hyes
    obtain ⟨hcond', ns, tail, kept₁, kept₂, hns, hyields', hcont, hprints₁, hprints₂⟩ :=
      ih fun hsuffix => hbranch
        (hsuffix.trans ⟨ts ++ [⟨.directive "elif" rest, at_⟩], by simp [hts, helif]⟩)
    refine ⟨hcond, ts, _, kept, _, ?_, hyields, hyields'.continues_elif hcond' hcont at_, hprints,
      hwrap hprints₁ hprints₂⟩
    rw [hts, helif, show us = ns ++ tail ++ c'.rest from hns]
    simp

/-- A whole conditional contributes the branch that its conditions pick. -/
theorem ReadsConditional.takes {loc : Loc} {s s' : σ} {c c' : Cursor} {yes no : List α}
    (hrest : c.rest = ⟨.directive directive operand, loc⟩ :: ts)
    (hopens : opensConditional directive)
    (h : ReadsConditional branch wrap directive operand s { c with rest := ts } cond yes no s' c')
    (hbranch : ∀ {s c₁ l s' c₂}, c₁.rest <:+ ts → Reads (branch s) c₁ (l, s') c₂ →
      Takes defined c₁ c₂ (Prints l)) (hnil : Prints [] [])
    (hwrap : ∀ {cond yes no loc kept kept'}, Prints yes kept → Prints no kept' →
      Prints [wrap cond yes no loc] (if cond.eval defined then kept else kept')) :
    Takes defined c c' (Prints [wrap cond yes no loc]) := by
  obtain ⟨hcond, us, tail, kept, kept', hus, hyields, hcont, hyes, hno⟩ :=
    h.yields Prints hbranch hnil hwrap
  refine ⟨_, _, ?_, hyields.conditional hopens hcond hcont loc, hwrap hyes hno⟩
  rw [hrest, show ts = us ++ tail ++ c'.rest from hus, List.cons_append]

end ShaderDialect.Reader
