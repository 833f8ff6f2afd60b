import Mathlib.Data.Set.Basic
import ShaderDialect.Cache
import ShaderDialect.Proofs.FileTree.Resolution

/-! Trees that have lost files. What does not stand where one was is found as before, and nothing
new is found. -/
namespace ShaderDialect.FileTree

open Success

variable {t u v : FileTree} {places : Set Key} {p file : Path} {k k' : Key}

/-- A tree without some files, which stood at the given places. -/
structure Loses (places : Set Key) (t u : FileTree) : Prop where
  cwd : u.cwd = t.cwd
  node : ∀ k, u.node? k = t.node? k ∨
    k ∈ places ∧ u.node? k = none ∧ ∃ content executable,
      t.node? k = some (.file content executable)

variable {content : List UInt8}

namespace Loses

theorem refl (places : Set Key) (t : FileTree) : Loses places t t := ⟨rfl, fun _ => .inl rfl⟩

theorem trans (h : Loses places t u) (h' : Loses places u v) : Loses places t v := by
  refine ⟨h'.cwd.trans h.cwd, fun k => ?_⟩
  rcases h'.node k with hv | ⟨hk, hv, content, executable, hu⟩
  · rw [hv]
    exact h.node k
  · rcases h.node k with hu' | ⟨-, hnone, -⟩
    · exact .inr ⟨hk, hv, content, executable, hu' ▸ hu⟩
    · cases hnone.symm.trans hu

theorem mono {places' : Set Key} (h : Loses places t u) (hsub : places ⊆ places') :
    Loses places' t u :=
  ⟨h.cwd, fun k => (h.node k).imp_right fun hk => ⟨hsub hk.1, hk.2⟩⟩

theorem node_of_node (h : Loses places t u) {n : Node} (hn : u.node? k = some n) :
    t.node? k = some n := by
  rcases h.node k with hk | ⟨-, hnone, -⟩
  · exact hk.symm.trans hn
  · cases hnone.symm.trans hn

theorem node_eq (h : Loses places t u) (hk : k ∉ places) : u.node? k = t.node? k :=
  (h.node k).resolve_right fun hlost => hk hlost.1

theorem grows (h : Loses places t u) : Grows u t where
  cwd := h.cwd.symm
  directory _ hk := h.node_of_node hk
  isSome k hk := by
    obtain ⟨n, hn⟩ := Option.isSome_iff_exists.1 hk
    rw [h.node_of_node hn]
    rfl

/-- A way that leads anywhere but to a lost file is still there. -/
theorem walk (h : Loses places t u) {cs : List Path.Component} (hw : t.walk k cs = .ok k')
    (hk : k' ∉ places) : u.walk k cs = .ok k' := by
  induction cs generalizing k with
  | nil => simpa [FileTree.walk] using hw
  | cons c cs ih =>
    obtain ⟨hdirectory, hname, hmore⟩ := walk_cons.1 hw
    have hkept : u.node? k = some .directory := by
      rcases h.node k with hnode | ⟨-, -, _, _, hfile⟩
      · exact hnode.trans hdirectory
      · cases hfile.symm.trans hdirectory
    refine walk_cons.2 ⟨hkept, fun s hs => ⟨(hname s hs).1, ?_⟩, ih hmore⟩
    rcases h.node (k ++ [s]) with hnode | ⟨hlost, -, _, _, hfile⟩
    · rw [hnode]
      exact (hname s hs).2
    · -- Nothing is found behind a file, so it is where the way ends.
      subst hs
      cases cs with
      | nil =>
        obtain rfl : k ++ [s] = k' := by simpa [FileTree.walk, move] using hmore
        exact absurd hlost hk
      | cons d ds => cases hfile.symm.trans (walk_cons.1 hmore).1

theorem resolve (h : Loses places t u) (hr : t.resolve p = .ok k) (hk : k ∉ places) :
    u.resolve p = .ok k := by
  obtain ⟨hpath, hlength, hw⟩ := resolve_eq_ok.1 hr
  exact resolve_eq_ok.2 ⟨hpath, hlength, start_congr h.cwd p ▸ h.walk hw hk⟩

theorem read_of_read (h : Loses places t u) (hr : u.read p = .ok content) :
    t.read p = .ok content := by
  obtain ⟨hresolve, executable, hnode⟩ := read_eq_ok.1 hr
  rw [keyOf_congr h.cwd] at hresolve hnode
  exact read_eq_ok.2 ⟨h.grows.resolve hresolve, executable, h.node_of_node hnode⟩

theorem read_eq (h : Loses places t u) (hp : t.keyOf p ∉ places) :
    (u.read p).toOption = (t.read p).toOption := by
  cases hr : t.read p with
  | ok content =>
    obtain ⟨hresolve, executable, hnode⟩ := read_eq_ok.1 hr
    have hread : u.read p = .ok content := by
      rw [read_eq_ok, keyOf_congr h.cwd]
      exact ⟨h.resolve hresolve hp, executable, (h.node_eq hp).trans hnode⟩
    rw [hread]
  | error e =>
    cases hr' : u.read p with
    | ok content => cases hr.symm.trans (h.read_of_read hr')
    | error e' => rfl

theorem canonical_of_canonical (h : Loses places t u) (hc : u.canonical p = .ok file) :
    t.canonical p = .ok file := by
  simp only [canonical, find, bind_eq_ok, start, h.cwd] at hc ⊢
  obtain ⟨k, ⟨_, hpath, hw⟩, hfile⟩ := hc
  exact ⟨k, ⟨_, hpath, h.grows.walk hw⟩, hfile⟩

end Loses

theorem node?_erase_self (hk : k ≠ []) : (t.erase k).node? k = none := by
  rw [node?, if_neg hk, List.lookup_eq_none_iff]
  rintro ⟨k', n⟩ he
  have hne : k' ≠ k := by simpa using (List.mem_filter.1 he).2
  exact bne_iff_ne.2 hne.symm

theorem loses_erase (h : t.node? k ≠ some .directory) : Loses {k} t (t.erase k) := by
  refine ⟨rfl, fun j => ?_⟩
  by_cases hj : j = k
  · subst hj
    have hne : j ≠ [] := by
      rintro rfl
      exact h (if_pos rfl)
    cases hn : t.node? j with
    | none => exact .inl (node?_erase_self hne)
    | some n =>
      cases n with
      | directory => exact absurd hn h
      | file content executable => exact .inr ⟨rfl, node?_erase_self hne, content, executable, rfl⟩
  · exact .inl (t.node?_erase_of_ne hj)

theorem loses_discard (h : t.discard p = .ok u) : Loses {t.keyOf p} t u := by
  rw [discard] at h
  split at h
  · next hr =>
    cases h
    simp only [remove, bind_eq_ok] at hr
    obtain ⟨k, hresolve, hr⟩ := hr
    obtain rfl := resolve_eq hresolve
    split at hr
    · simp at hr
    · next hdirectory =>
      obtain rfl := pure_eq_ok.1 hr
      exact loses_erase hdirectory
  · cases h
    exact .refl _ _
  · cases h

theorem discard_of_read (h : t.read p = .ok content) : t.discard p = .ok (t.erase (t.keyOf p)) := by
  obtain ⟨hresolve, executable, hnode⟩ := read_eq_ok.1 h
  have hremove : t.remove p = .ok (t.erase (t.keyOf p)) := by
    simp only [remove, bind_eq_ok]
    exact ⟨_, hresolve, by rw [hnode]; rfl⟩
  rw [discard, hremove]

end ShaderDialect.FileTree
