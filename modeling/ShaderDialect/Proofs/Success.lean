import Mathlib.Data.List.Forall2
import Mathlib.Tactic.Simproc.ExistsAndEq

/-! Computations that may fail: what is known when one succeeds. -/
namespace ShaderDialect.Success
open List

variable {ε α β : Type} {r : β} {f : α → Except ε β} {l : List α} {bs : List β}

@[simp] theorem pure_eq_ok {b : β} : (pure b : Except ε β) = .ok r ↔ b = r := by
  change Except.ok b = .ok r ↔ b = r
  simp

@[simp] theorem throw_eq_ok {e : ε} : ¬ (throw e : Except ε β) = .ok r := by
  intro h
  cases h

@[simp] theorem bind_eq_ok {x : Except ε α} {f : α → Except ε β} :
    (x >>= f) = .ok r ↔ ∃ a, x = .ok a ∧ f a = .ok r := by
  cases x with
  | error e => simp [bind, Except.bind]
  | ok a => simp [bind, Except.bind]

theorem bind_eq_error {x : Except ε α} {f : α → Except ε β} {e : ε} :
    (x >>= f) = .error e ↔ x = .error e ∨ ∃ a, x = .ok a ∧ f a = .error e := by
  cases x with
  | error e' => simp [bind, Except.bind]
  | ok a => simp [bind, Except.bind]

theorem exists_ok {x : Except ε α} (h : x.isOk = true) : ∃ a, x = .ok a := by
  cases x with
  | error e => cases h
  | ok a => exact ⟨a, rfl⟩

@[simp] theorem map_eq_ok {x : Except ε α} {f : α → β} :
    x.map f = .ok r ↔ ∃ a, x = .ok a ∧ f a = r := by
  cases x with
  | error e => simp [Except.map]
  | ok a => simp [Except.map]

@[simp] theorem functor_map_eq_ok {x : Except ε α} {f : α → β} :
    f <$> x = .ok r ↔ ∃ a, x = .ok a ∧ f a = r := map_eq_ok

theorem mapM_eq_ok : l.mapM f = .ok bs ↔ l.map f = bs.map .ok := by
  induction l generalizing bs with
  | nil => cases bs <;> simp
  | cons a l ih =>
    rw [mapM_cons]
    cases bs with
    | nil => simp
    | cons b bs =>
      simp only [bind_eq_ok, pure_eq_ok, cons.injEq, map_cons, ← ih]
      constructor
      · rintro ⟨_, hb, _, hbs, rfl, rfl⟩
        exact ⟨hb, hbs⟩
      · rintro ⟨hb, hbs⟩
        exact ⟨b, hb, bs, hbs, rfl, rfl⟩

theorem forall₂_of_mapM (h : l.mapM f = .ok bs) : List.Forall₂ (fun a b => f a = .ok b) l bs := by
  rw [mapM_eq_ok, ← forall₂_eq_eq_eq] at h
  simpa using h

theorem exists_of_mapM (h : l.mapM f = .ok bs) {a : α} (ha : a ∈ l) : ∃ b ∈ bs, f a = .ok b := by
  have hmem : f a ∈ bs.map .ok := mapM_eq_ok.1 h ▸ mem_map_of_mem ha
  obtain ⟨b, hb, he⟩ := mem_map.1 hmem
  exact ⟨b, hb, he.symm⟩

/-- What holds at first and is kept by every step holds after a run. -/
theorem foldlM_induction {step : β → α → Except ε β} {b b' : β} (motive : List α → β → Prop)
    (h : l.foldlM step b = .ok b') (hfirst : motive [] b)
    (hstep : ∀ done a b b', a ∈ l → motive done b → step b a = .ok b' → motive (done ++ [a]) b') :
    motive l b' := by
  suffices ∀ more done b, l = done ++ more → motive done b → more.foldlM step b = .ok b' →
      motive l b' from this l [] b rfl hfirst h
  intro more
  induction more with
  | nil =>
    rintro done b rfl hdone h
    cases h
    rwa [append_nil]
  | cons a more ih =>
    intro done b hl hdone h
    rw [foldlM_cons, bind_eq_ok] at h
    obtain ⟨b₁, hb, h⟩ := h
    exact ih (done ++ [a]) b₁ (by simpa using hl)
      (hstep done a b b₁ (by simp [hl]) hdone hb) h

end ShaderDialect.Success
