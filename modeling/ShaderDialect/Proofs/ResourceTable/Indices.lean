import Mathlib.Algebra.GroupWithZero.Nat
import Mathlib.Data.List.Basic
import ShaderDialect.ResourceTable.Resolve

/-! The indices of a set: its declarations share them out from zero on, without gaps and without
overlaps. -/
namespace ShaderDialect
open List

/-- What a declaration fixes of a resource. -/
def ResourceDecl.signature (d : ResourceDecl) : String × ResourceKind × Nat :=
  (d.name, d.kind, d.length)

namespace TableResource
variable {r : TableResource}

def signature (r : TableResource) : String × ResourceKind × Nat := (r.name, r.kind, r.length)

def indices (r : TableResource) : List Nat := List.range' r.index r.length

theorem mem_indices {n : Nat} : n ∈ r.indices ↔ r.index ≤ n ∧ n < r.index + r.length := by
  simp [indices, mem_range'_1]

end TableResource

/-- Resources take the indices from one number up to another, one after the other. -/
inductive Consecutive : Nat → List TableResource → Nat → Prop
  | nil (n : Nat) : Consecutive n [] n
  | cons {n stop : Nat} {r : TableResource} {rs : List TableResource} (index : r.index = n)
      (rest : Consecutive (n + r.length) rs stop) : Consecutive n (r :: rs) stop

namespace Consecutive
variable {r : TableResource} {start stop : Nat} {rs : List TableResource}

theorem stop_eq (h : Consecutive start rs stop) :
    stop = start + (rs.map TableResource.length).sum := by
  induction h with
  | nil => simp
  | cons _ _ ih =>
    rw [ih, map_cons, sum_cons]
    omega

theorem bounds (h : Consecutive start rs stop) (hr : r ∈ rs) :
    start ≤ r.index ∧ r.index + r.length ≤ stop := by
  induction h with
  | nil => cases hr
  | cons hi hrest ih =>
    have hstop := hrest.stop_eq
    rcases mem_cons.1 hr with rfl | hr
    · omega
    · have := ih hr
      omega

theorem index_eq (h : Consecutive start rs stop) {i : Nat} (hr : rs[i]? = some r) :
    r.index = start + ((rs.take i).map TableResource.length).sum := by
  induction h generalizing i with
  | nil => simp at hr
  | cons hi _ ih =>
    cases i with
    | zero =>
      cases hr
      simpa using hi
    | succ i =>
      rw [ih hr, take_succ_cons, map_cons, sum_cons]
      omega

/-- What comes later starts where all before it has ended. -/
theorem ordered (h : Consecutive start rs stop) :
    rs.Pairwise fun r r' => r.index + r.length ≤ r'.index := by
  induction h with
  | nil => exact .nil
  | cons hi hrest ih =>
    refine pairwise_cons.2 ⟨fun r hr => ?_, ih⟩
    have := (hrest.bounds hr).1
    omega

theorem flatMap_indices (h : Consecutive start rs stop) :
    rs.flatMap TableResource.indices = List.range' start (stop - start) := by
  induction h with
  | nil => simp
  | cons hi hrest ih =>
    have hstop := hrest.stop_eq
    rw [flatMap_cons, ih, TableResource.indices, hi, List.range'_append_1]
    congr 1
    omega

end Consecutive

namespace SetBlock

section Place
variable {scope : String} {frequency : Frequency} {next : Nat} {ds : List ResourceDecl}

/-- Placing succeeds exactly if all frequencies agree and the last index is in range. -/
theorem place_isOk_iff (hnext : next < indexRange) :
    (∃ p, place scope frequency next ds = .ok p) ↔
      (∀ d ∈ ds, d.frequency = frequency) ∧
        next + (ds.map ResourceDecl.length).sum < indexRange := by
  induction ds generalizing next with
  | nil => simpa [place] using hnext
  | cons d ds ih =>
    rw [place, forall_mem_cons, map_cons, sum_cons, ← Nat.add_assoc]
    by_cases hf : d.frequency = frequency
    · by_cases hd : indexRange ≤ next + d.length
      · simp only [hf, ne_eq, not_true_eq_false, if_false, hd, if_true, reduceCtorEq, exists_false,
          true_and, false_iff, not_and]
        omega
      · rw [if_neg (not_not.2 hf), if_neg hd, and_assoc, ← ih (by omega)]
        cases place scope frequency (next + d.length) ds <;> simp [hf]
    · simp [hf]

theorem place_eq_ok {rs : List TableResource} {count : Nat}
    (h : place scope frequency next ds = .ok (rs, count)) :
    rs.map TableResource.signature = ds.map ResourceDecl.signature ∧
      Consecutive next rs count := by
  induction ds generalizing next rs with
  | nil =>
    cases h
    exact ⟨rfl, .nil _⟩
  | cons d ds ih =>
    rw [place] at h
    split at h
    · cases h
    split at h
    · cases h
    split at h
    · next rest n hrest =>
      cases h
      obtain ⟨hs, hc⟩ := ih hrest
      exact ⟨by rw [map_cons, map_cons, hs]; rfl, .cons rfl hc⟩
    · cases h

end Place

theorem resolve_eq_ok {scope : String} {shared : Option String} {s : SetBlock} {t : TableSet} :
    s.resolve scope shared = .ok t ↔
      place scope s.frequency 0 s.decls = .ok (t.resources, t.count) ∧
        t.frequency = s.frequency ∧ t.shared = shared := by
  obtain ⟨frequency, shared', resources, count⟩ := t
  rw [resolve]
  cases place scope s.frequency 0 s.decls with
  | error e => simp
  | ok p =>
    simp only [Except.ok.injEq, TableSet.mk.injEq, Prod.ext_iff]
    grind

/-- A set can be resolved exactly if its declarations have its frequency and take fewer than 2 ^ 32
indices together. They are then listed in their order, each from the index on that those before it
end at, and their indices are the numbers below the set's count, none of them twice. -/
theorem resolve_partitions (scope : String) (shared : Option String) (s : SetBlock) :
    ((∃ t, s.resolve scope shared = .ok t) ↔
      (∀ d ∈ s.decls, d.frequency = s.frequency) ∧
        (s.decls.map ResourceDecl.length).sum < 2 ^ 32) ∧
    ∀ t, s.resolve scope shared = .ok t →
      t.frequency = s.frequency ∧ t.shared = shared ∧
      t.resources.map TableResource.signature = s.decls.map ResourceDecl.signature ∧
      (∀ i r, t.resources[i]? = some r →
        r.index = ((s.decls.take i).map ResourceDecl.length).sum) ∧
      t.resources.Pairwise (fun r r' => List.Disjoint r.indices r'.indices) ∧
      t.resources.flatMap TableResource.indices = List.range t.count := by
  constructor
  · have hplace := @place_isOk_iff scope s.frequency 0 s.decls (by decide)
    rw [Nat.zero_add] at hplace
    refine Iff.trans ⟨?_, ?_⟩ hplace
    · rintro ⟨t, ht⟩
      exact ⟨_, (resolve_eq_ok.1 ht).1⟩
    · rintro ⟨⟨rs, count⟩, h⟩
      exact ⟨⟨s.frequency, shared, rs, count⟩, resolve_eq_ok.2 ⟨h, rfl, rfl⟩⟩
  · intro t ht
    obtain ⟨hplace, hf, hs⟩ := resolve_eq_ok.1 ht
    obtain ⟨hsig, hc⟩ := place_eq_ok hplace
    have hlen : t.resources.map TableResource.length = s.decls.map ResourceDecl.length := by
      have h := congrArg (List.map fun x => x.2.2) hsig
      rw [map_map, map_map] at h
      exact h
    refine ⟨hf, hs, hsig, fun i r hr => ?_, hc.ordered.imp fun {r r'} h n hn hn' => ?_, ?_⟩
    · rw [hc.index_eq hr, Nat.zero_add, map_take, hlen, map_take]
    · rw [TableResource.mem_indices] at hn hn'
      omega
    · rw [hc.flatMap_indices, range_eq_range', Nat.sub_zero]

/-- A set of an array of four textures and an array of buffers. -/
def texturesAndBuffers (buffers : Nat) : SetBlock :=
  let loc : Loc := ⟨"lit.fsl", 1⟩
  ⟨.perFrame, [⟨"maps", .texture .tex2D .void, 4, .perFrame, loc⟩,
    ⟨"lists", .buffer .void, buffers, .perFrame, loc⟩], loc⟩

/-- The last index of all can be taken, and none beyond it. -/
theorem resolve_partitions_texturesAndBuffers :
    (∃ t, (texturesAndBuffers (2 ^ 32 - 5)).resolve "Lit" none = .ok t ∧
      (∀ r, t.resources[1]? = some r → r.index = 4) ∧
      t.resources.flatMap TableResource.indices = List.range t.count) ∧
    ¬ ∃ t, (texturesAndBuffers (2 ^ 32 - 4)).resolve "Lit" none = .ok t := by
  constructor
  · obtain ⟨hok, hall⟩ := resolve_partitions "Lit" none (texturesAndBuffers (2 ^ 32 - 5))
    obtain ⟨t, ht⟩ := hok.2 (by decide)
    obtain ⟨-, -, -, hindex, -, hcover⟩ := hall t ht
    exact ⟨t, ht, fun r hr => hindex 1 r hr, hcover⟩
  · rw [(resolve_partitions "Lit" none (texturesAndBuffers (2 ^ 32 - 4))).1]
    decide

end SetBlock
end ShaderDialect
