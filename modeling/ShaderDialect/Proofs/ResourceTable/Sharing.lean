import ShaderDialect.ResourceTable.Resolve

/-! Shared sets are resolved once and kept for the tables that follow. What is kept of a set is what
resolving it afresh gives, also after a table that has failed, so every table comes out as it does
by itself. -/
namespace ShaderDialect

namespace TableDecl

def resolveSet (sharedSets : List SharedSet) (table : String) : SetSource → Except Failure TableSet
  | .own set => set.resolve table none
  | .shared name loc =>
    match sharedSets.find? (·.name == name) with
    | none => .error (.program table (.unknownSharedSet name loc))
    | some s => s.set.resolve s.name (some s.name)

/-- A table by itself, with all that it includes resolved for it alone. -/
def resolve (sharedSets : List SharedSet) (d : TableDecl) : Except Failure ResourceTable := do
  let sets ← d.sets.mapM (resolveSet sharedSets d.name)
  d.ofSets sets

end TableDecl

def ResourceTables.ofDeclared (d : Declared) : ResourceTables :=
  ⟨d.tables.map fun t => (t.name, t.resolve d.sharedSets)⟩

namespace Resolving
variable {α β : Type} {sharedSets : List SharedSet} {kept : List (String × TableSet)}

def after (x : Resolving α) (kept : List (String × TableSet)) :
    Except Failure α × List (String × TableSet) := x.run.run kept

theorem after_bind (x : Resolving α) (f : α → Resolving β) :
    after (x >>= f) kept =
      match after x kept with
      | (.ok a, kept') => after (f a) kept'
      | (.error e, kept') => (.error e, kept') := by
  simp only [after, ExceptT.run_bind, StateT.run_bind]
  rcases x.run.run kept with ⟨_ | _, _⟩ <;> rfl

theorem after_get (f : List (String × TableSet) → Resolving β) :
    after (get >>= f) kept = after (f kept) kept := rfl

/-- What is kept under a name is what resolving the shared set of that name gives. -/
def Sound (sharedSets : List SharedSet) (kept : List (String × TableSet)) : Prop :=
  ∀ name set, kept.lookup name = some set →
    ∃ s, sharedSets.find? (·.name == name) = some s ∧
      s.set.resolve s.name (some s.name) = .ok set

theorem sound_nil : Sound sharedSets [] := by
  intro name set h
  cases h

theorem Sound.cons {s : SharedSet} {set : TableSet} (h : Sound sharedSets kept)
    (hs : sharedSets.find? (·.name == s.name) = some s)
    (hset : s.set.resolve s.name (some s.name) = .ok set) :
    Sound sharedSets ((s.name, set) :: kept) := by
  intro name set' hl
  by_cases hn : name = s.name
  · subst hn
    have he : set = set' := by simpa using hl
    subst he
    exact ⟨s, hs, hset⟩
  · have hne : (name == s.name) = false := by simpa using hn
    rw [List.lookup_cons, hne] at hl
    exact h name set' hl

/-- Whatever sound sets are kept, the result is the given one, and what is kept stays sound. -/
def Gives (sharedSets : List SharedSet) (x : Resolving α) (r : Except Failure α) : Prop :=
  ∀ kept, Sound sharedSets kept →
    (after x kept).1 = r ∧ Sound sharedSets (after x kept).2

theorem gives_lift (r : Except Failure α) : Gives sharedSets (ExceptT.mk (pure r)) r := by
  intro kept h
  exact ⟨rfl, h⟩

theorem gives_bind {x : Resolving α} {r : Except Failure α} {f : α → Resolving β}
    {g : α → Except Failure β} (hx : Gives sharedSets x r)
    (hf : ∀ a, Gives sharedSets (f a) (g a)) : Gives sharedSets (x >>= f) (r >>= g) := by
  intro kept h
  obtain ⟨hr, hkept⟩ := hx kept h
  rw [after_bind]
  rcases hafter : after x kept with ⟨_ | a, kept'⟩
  · rw [hafter] at hr hkept
    subst hr
    exact ⟨rfl, hkept⟩
  · rw [hafter] at hr hkept
    subst hr
    exact hf a kept' hkept

theorem gives_mapM {f : α → Resolving β} {g : α → Except Failure β}
    (h : ∀ a, Gives sharedSets (f a) (g a)) (l : List α) :
    Gives sharedSets (l.mapM f) (l.mapM g) := by
  induction l with
  | nil => exact gives_lift (.ok [])
  | cons a l ih =>
    rw [List.mapM_cons, List.mapM_cons]
    refine gives_bind (h a) fun b => gives_bind ih fun bs => ?_
    exact gives_lift (.ok (b :: bs))

theorem gives_resolveOnce {s : SharedSet} (hs : sharedSets.find? (·.name == s.name) = some s) :
    Gives sharedSets s.resolveOnce (s.set.resolve s.name (some s.name)) := by
  intro kept h
  cases hl : kept.lookup s.name with
  | some set =>
    obtain ⟨s', hs', hset⟩ := h s.name set hl
    obtain rfl : s = s' := Option.some.inj (hs.symm.trans hs')
    rw [SharedSet.resolveOnce, after_get, hl, hset]
    exact ⟨rfl, h⟩
  | none =>
    rw [SharedSet.resolveOnce, after_get, hl]
    cases hset : s.set.resolve s.name (some s.name) with
    | ok set => exact ⟨rfl, h.cons hs hset⟩
    | error e => exact ⟨rfl, h⟩

theorem gives_resolveSetOnce (table : String) (source : SetSource) :
    Gives sharedSets (TableDecl.resolveSetOnce sharedSets table source)
      (TableDecl.resolveSet sharedSets table source) := by
  cases source with
  | own set => exact gives_lift _
  | shared name loc =>
    rw [TableDecl.resolveSetOnce, TableDecl.resolveSet]
    cases hs : sharedSets.find? (·.name == name) with
    | none => exact gives_lift (.error _)
    | some s =>
      have hname : s.name = name := by simpa using List.find?_some hs
      subst hname
      exact gives_resolveOnce hs

theorem gives_table (d : TableDecl) :
    Gives sharedSets (d.resolveOnce sharedSets) (d.resolve sharedSets) :=
  gives_bind (gives_mapM (gives_resolveSetOnce d.name) d.sets) fun sets =>
    gives_lift (d.ofSets sets)

end Resolving

/-- The tables that come after others do not depend on them. -/
theorem ResourceTables.resolveAll_eq (d : Declared) : resolveAll d = ofDeclared d := by
  suffices h : ∀ (tables : List TableDecl) kept, Resolving.Sound d.sharedSets kept →
      ((tables.mapM fun t => (return (t.name, ← (t.resolveOnce d.sharedSets).run) :
        StateM (List (String × TableSet)) _)).run kept).1 =
        tables.map fun t => (t.name, t.resolve d.sharedSets) by
    rw [resolveAll, ofDeclared, h d.tables [] Resolving.sound_nil]
  intro tables
  -- The invariant is that what is kept is sound; it also holds after a table that has failed.
  induction tables with
  | nil =>
    intro kept _
    rfl
  | cons t tables ih =>
    intro kept h
    obtain ⟨hresult, hkept⟩ := Resolving.gives_table t kept h
    have hrest := ih _ hkept
    rw [List.mapM_cons, List.map_cons, ← hresult, ← hrest]
    rfl

end ShaderDialect
