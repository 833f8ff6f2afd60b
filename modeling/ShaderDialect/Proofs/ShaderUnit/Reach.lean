import Mathlib.Data.List.Perm.Subperm
import Mathlib.Logic.Relation
import ShaderDialect.Proofs.ResourceTable.Tables
import ShaderDialect.ShaderUnit.Reach

/-! Functions that call each other. The search for the helpers of an entry point lists each of them
once, after all that it calls itself. -/
namespace ShaderDialect

open List Success

theorem Text.mem_distinct {α : Type} [DecidableEq α] {a : α} {l : List α} :
    a ∈ distinct l ↔ a ∈ l := by
  induction l with
  | nil => rfl
  | cons b l ih =>
    by_cases hab : a = b
    · simp [distinct, hab]
    · simp [distinct, ih, hab]

namespace Function
variable {fs : List Function} {f g : Function}

/-- The body calls a function of the list, be it in an argument of another call. -/
def Calls (fs : List Function) (f g : Function) : Prop :=
  g ∈ fs ∧ ∃ args loc, Fragment.call g.name args loc ∈ Fragment.nestedList f.body

/-- A function is reached through any number of calls, and from itself through none. -/
def Reaches (fs : List Function) : Function → Function → Prop := Relation.ReflTransGen (Calls fs)

theorem mem_calls {name : String} :
    name ∈ f.calls ↔ ∃ args loc, Fragment.call name args loc ∈ Fragment.nestedList f.body := by
  rw [calls, mem_filterMap]
  constructor
  · rintro ⟨fragment, hmem, hname⟩
    cases fragment <;> simp only [Fragment.callName?, Option.some.injEq, reduceCtorEq] at hname
    exact ⟨_, _, hname ▸ hmem⟩
  · rintro ⟨args, loc, hmem⟩
    exact ⟨_, hmem, rfl⟩

theorem calls_iff : Calls fs f g ↔ g ∈ fs ∧ g.name ∈ f.calls := by
  rw [Calls, mem_calls]

theorem mem_callees (hfs : (fs.map name).Nodup) : g ∈ f.callees fs ↔ f.Calls fs g := by
  simp only [callees, mem_filterMap, Text.mem_distinct, find?_eq_some_of_nodup hfs, calls_iff]
  constructor
  · rintro ⟨_, hcalls, hg, rfl⟩
    exact ⟨hg, hcalls⟩
  · rintro ⟨hg, hcalls⟩
    exact ⟨g.name, hcalls, hg, rfl⟩

theorem reaches_iff : f.Reaches fs g ↔ f = g ∨ ∃ h, f.Calls fs h ∧ h.Reaches fs g := by
  constructor
  · intro hreach
    rcases hreach.cases_head with rfl | hreach
    · exact .inl rfl
    · exact .inr hreach
  · rintro (rfl | ⟨h, hcall, hreach⟩)
    · exact .refl
    · exact hreach.head hcall

end Function

namespace Helpers
variable {fs found found' : List Function} {f g : Function} {scope : String} {names : List String}

/-- Functions of a list, each once and after those that it calls. -/
structure Ordered (fs found : List Function) : Prop where
  subset : found ⊆ fs
  nodup : found.Nodup
  closed : ∀ front g back, found = front ++ g :: back → ∀ h, g.Calls fs h → h ∈ front

theorem ordered_nil : Ordered fs [] := ⟨nil_subset _, .nil, by simp⟩

theorem Ordered.add (h : Ordered fs found) (hg : g ∈ fs) (hnew : g ∉ found)
    (hcalls : ∀ h, g.Calls fs h → h ∈ found) : Ordered fs (found ++ [g]) := by
  refine ⟨append_subset.2 ⟨h.subset, by simpa using hg⟩, ?_, ?_⟩
  · exact nodup_append.2 ⟨h.nodup, nodup_singleton g, by grind⟩
  · intro front k back hsplit
    rcases eq_nil_or_concat back with rfl | ⟨back, last, rfl⟩
    · obtain ⟨rfl, hlast⟩ := append_inj' hsplit rfl
      obtain rfl : g = k := by simpa using hlast
      exact hcalls
    · rw [concat_eq_append, ← cons_append, ← append_assoc] at hsplit
      exact h.closed front k back (append_inj' hsplit rfl).1

/-- The functions of a list that are found are all that are reached from them. -/
theorem Ordered.mem_of_reaches (h : Ordered fs found) (hf : f ∈ found) (hreach : f.Reaches fs g) :
    g ∈ found := by
  induction hreach with
  | refl => exact hf
  | tail _ hcall ih =>
    obtain ⟨front, back, rfl⟩ := append_of_mem ih
    exact mem_append_left _ (h.closed _ _ _ rfl _ hcall)

/-- The names of an entry point and of functions of a list, which all differ, the entry point's own
name perhaps excepted. -/
structure Chain (fs : List Function) (names : List String) : Prop where
  nodup : names.dropLast.Nodup
  subset : names.dropLast ⊆ fs.map Function.name

theorem Chain.length_le (h : Chain fs names) : names.length ≤ fs.length + 1 := by
  have hle := (subperm_of_subset h.nodup h.subset).length_le
  rw [length_dropLast, length_map] at hle
  omega

theorem Chain.push {name : String} (h : Chain fs (name :: names)) (hg : g ∈ fs)
    (hnew : g.name ∉ name :: names) : Chain fs (g.name :: name :: names) := by
  refine ⟨?_, ?_⟩
  · rw [dropLast_cons_cons, nodup_cons]
    exact ⟨fun hmem => hnew ((dropLast_sublist _).subset hmem), h.nodup⟩
  · rw [dropLast_cons_cons, cons_subset]
    exact ⟨mem_map_of_mem hg, h.subset⟩

/-- The search went on, and did not add what has one of the names. -/
structure Grows (fs : List Function) (names : List String) (found found' : List Function) :
    Prop where
  kept : found ⊆ found'
  added : ∀ g ∈ found', g ∉ found → g.name ∉ names
  ordered : Ordered fs found'

theorem Grows.refl (h : Ordered fs found) : Grows fs names found found :=
  ⟨List.Subset.refl _, fun _ hg hnew => absurd hg hnew, h⟩

theorem Grows.add {found₁ found₂ : List Function} (h : Grows fs names found found₁) (hg : g ∈ fs)
    (hnames : g.name ∉ names) (hnew : g ∉ found₁)
    (hvisit : Grows fs (g.name :: names) found₁ found₂) (hcalls : ∀ h, g.Calls fs h → h ∈ found₂) :
    Grows fs names found (found₂ ++ [g]) := by
  refine ⟨fun k hk => mem_append_left _ (hvisit.kept (h.kept hk)), fun k hk hk' => ?_, ?_⟩
  · rcases mem_append.1 hk with hk | hk
    · by_cases hk₁ : k ∈ found₁
      · exact h.added k hk₁ hk'
      · exact fun hmem => hvisit.added k hk hk₁ (mem_cons_of_mem _ hmem)
    · obtain rfl := mem_singleton.1 hk
      exact hnames
  · exact hvisit.ordered.add hg (fun hmem => hvisit.added g hmem hnew mem_cons_self) hcalls

/-- A visit finds what a function calls. The fuel lasts, since functions under way differ. -/
theorem grows_visit (hfs : (fs.map Function.name).Nodup) {fuel : Nat} {underWay : List String}
    (hchain : Chain fs (f.name :: underWay))
    (hfuel : fs.length + 1 < fuel + (f.name :: underWay).length) (hfound : Ordered fs found)
    (h : visit scope fs fuel underWay f found = .ok found') :
    Grows fs (f.name :: underWay) found found' ∧ ∀ g, f.Calls fs g → g ∈ found' := by
  induction fuel generalizing underWay f found found' with
  | zero =>
    have := hchain.length_le
    omega
  | succ fuel ih =>
    have hrun := foldlM_induction
      (fun done now => Grows fs (f.name :: underWay) found now ∧ ∀ g ∈ done, g ∈ now) h
      ⟨.refl hfound, by simp⟩ ?_
    · exact ⟨hrun.1, fun g hg => hrun.2 g ((Function.mem_callees hfs).2 hg)⟩
    rintro done callee now next hcallee ⟨hgrows, hdone⟩ hstep
    have hmem : callee ∈ fs := ((Function.mem_callees hfs).1 hcallee).1
    split at hstep
    · cases hstep
    next hnames =>
    rw [← mem_cons] at hnames
    split at hstep
    · next hany =>
      cases hstep
      obtain ⟨g, hg, hname⟩ := any_eq_true.1 hany
      obtain rfl : g = callee :=
        inj_on_of_nodup_map hfs (hgrows.ordered.subset hg) hmem (beq_iff_eq.1 hname)
      exact ⟨hgrows, by simpa [or_imp, forall_and] using ⟨hdone, hg⟩⟩
    · next hany =>
      simp only [bind_eq_ok, pure_eq_ok] at hstep
      obtain ⟨found₂, hvisit, rfl⟩ := hstep
      have hnew : callee ∉ now := fun hg => hany (any_eq_true.2 ⟨callee, hg, by simp⟩)
      obtain ⟨hgrows₂, hcalls⟩ := ih (hchain.push hmem hnames)
        (by simp only [length_cons] at hfuel ⊢; omega) hgrows.ordered hvisit
      refine ⟨hgrows.add hmem hnames hnew hgrows₂ hcalls, fun g hg => ?_⟩
      rcases mem_append.1 hg with hg | hg
      · exact mem_append_left _ (hgrows₂.kept (hdone g hg))
      · exact mem_append_right _ hg

/-- The helpers of an entry point are listed after those that they call, and all that are reached
are listed. -/
theorem ordered_reached (hfs : (fs.map Function.name).Nodup) (h : reached scope fs f = .ok found) :
    Ordered fs found ∧ ∀ g, f.Calls fs g → g ∈ found := by
  have hchain : Chain fs [f.name] := ⟨.nil, nil_subset _⟩
  obtain ⟨hgrows, hcalls⟩ := grows_visit hfs hchain (by simp) ordered_nil h
  exact ⟨hgrows.ordered, hcalls⟩

theorem mem_reached (hfs : (fs.map Function.name).Nodup) (h : reached scope fs f = .ok found)
    (hreach : f.Reaches fs g) : g = f ∨ g ∈ found := by
  obtain ⟨hordered, hcalls⟩ := ordered_reached hfs h
  rcases Function.reaches_iff.1 hreach with rfl | ⟨k, hcall, hreach⟩
  · exact .inl rfl
  · exact .inr (hordered.mem_of_reaches (hcalls k hcall) hreach)

end Helpers
end ShaderDialect
