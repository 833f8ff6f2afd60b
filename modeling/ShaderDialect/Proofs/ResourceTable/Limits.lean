import Mathlib.Algebra.GroupWithZero.Nat
import Mathlib.Data.List.Forall2
import Mathlib.Logic.Function.Basic
import ShaderDialect.ResourceTable.Limits

/-! What the limits of a target say about a table. Counts stop at the largest one, wherever they are
added up, but all ceilings lie below it. So nothing in excess of a ceiling is lost, and a table
passes exactly if what it needs is within the ceilings. -/
namespace ShaderDialect
open List

namespace ResourceTable
variable {t t' : ResourceTable} {target : Target} {p q : ResourceKind → Bool}

/-- How many indices some resources take that are of certain kinds. -/
def demandOf (p : ResourceKind → Bool) (rs : List TableResource) : Nat :=
  ((rs.filter fun r => p r.kind).map TableResource.length).sum

/-- How many indices the resources of a table take that are of certain kinds. -/
def demand (t : ResourceTable) (p : ResourceKind → Bool) : Nat := demandOf p (t.resources.map (·.2))

@[simp] theorem demandOf_nil (p : ResourceKind → Bool) : demandOf p [] = 0 := rfl

theorem demandOf_cons (p : ResourceKind → Bool) (r : TableResource) (rs : List TableResource) :
    demandOf p (r :: rs) = (if p r.kind then r.length else 0) + demandOf p rs := by
  by_cases h : p r.kind = true <;> simp [demandOf, h]

/-- Kinds of which no resource is of both are counted apart. -/
theorem demandOf_or (h : ∀ k, ¬ (p k = true ∧ q k = true)) (rs : List TableResource) :
    demandOf (fun k => p k || q k) rs = demandOf p rs + demandOf q rs := by
  induction rs with
  | nil => rfl
  | cons r rs ih =>
    have hr := h r.kind
    rw [demandOf_cons, demandOf_cons, demandOf_cons, ih]
    cases hp : p r.kind <;> cases hq : q r.kind <;> simp_all <;> omega

theorem countOf_eq (t : ResourceTable) (k : LimitedKind) :
    t.countOf k = min maxCount (t.demand k.counts) := by
  rw [countOf, demand, demandOf, filter_map, map_map, sum_eq_foldr, foldr_map]
  rfl

theorem ceiling_lt_maxCount : ∀ k ∈ target.limitedKinds, k.ceiling < maxCount := by
  cases target <;> decide

theorem checkLimits_eq_ok :
    t.checkLimits target false = .ok () ↔
      ∀ k ∈ target.limitedKinds, t.demand k.counts ≤ k.ceiling := by
  have hfind : t.checkLimits target false = .ok () ↔
      target.limitedKinds.find? (fun k => k.ceiling < t.countOf k) = none := by
    rw [checkLimits, if_neg Bool.false_ne_true]
    cases target.limitedKinds.find? fun k => k.ceiling < t.countOf k <;> simp
  rw [hfind, find?_eq_none]
  refine forall₂_congr fun k hk => ?_
  have hlt := ceiling_lt_maxCount k hk
  rw [countOf_eq, decide_eq_true_eq]
  omega

/-- Every resource of a table has its counterpart in another one, in the same order, of the same
kind and at least as long. The other table may have resources of its own, and its indices do not
count. -/
def Grows (t t' : ResourceTable) : Prop :=
  List.SublistForall₂ (fun r r' : TableResource => r.kind = r'.kind ∧ r.length ≤ r'.length)
    (t.resources.map (·.2)) (t'.resources.map (·.2))

theorem demandOf_mono {rs rs' : List TableResource} (p : ResourceKind → Bool)
    (h : List.SublistForall₂ (fun r r' => r.kind = r'.kind ∧ r.length ≤ r'.length) rs rs') :
    demandOf p rs ≤ demandOf p rs' := by
  induction h with
  | nil => exact Nat.zero_le _
  | cons hr _ ih =>
    rw [demandOf_cons, demandOf_cons, hr.1]
    split <;> omega
  | cons_right _ ih =>
    rw [demandOf_cons]
    omega

theorem checkLimits_of_grows (h : t.Grows t') (ht : t'.checkLimits target false = .ok ()) :
    t.checkLimits target false = .ok () :=
  checkLimits_eq_ok.2 fun k hk =>
    Nat.le_trans (demandOf_mono k.counts h) (checkLimits_eq_ok.1 ht k hk)

end ResourceTable

/-- The kinds of resources that have a counter of their own. -/
inductive Counter
  | samplers | textures | rwTextures | buffers | rwBuffers | constantBuffers
  deriving DecidableEq

def ResourceKind.counter : ResourceKind → Counter
  | sampler _ => .samplers
  | texture _ _ => .textures
  | rwTexture _ _ => .rwTextures
  | buffer _ => .buffers
  | rwBuffer _ => .rwBuffers
  | constantBuffer _ => .constantBuffers

/-- The counters that each limit of a target takes together. -/
def Target.counters : Target → List (List Counter)
  | direct3d12 =>
    [[.samplers], [.textures, .buffers], [.rwTextures, .rwBuffers], [.constantBuffers]]
  | vulkan => [[.samplers], [.constantBuffers], [.buffers, .rwBuffers], [.textures], [.rwTextures]]
  | metal => [[.textures, .rwTextures], [.buffers, .rwBuffers, .constantBuffers], [.samplers]]

namespace ResourceTable
variable {t : ResourceTable} {target : Target}

/-- Addition that stops at the largest count. -/
def addCount (n m : Nat) : Nat := min maxCount (n + m)

def addResource (counts : Counter → Nat) (r : TableResource) : Counter → Nat :=
  Function.update counts r.kind.counter (addCount (counts r.kind.counter) r.length)

def tally (t : ResourceTable) : Counter → Nat :=
  (t.resources.map (·.2)).foldl addResource fun _ => 0

def together (counts : Counter → Nat) (cs : List Counter) : Nat :=
  cs.foldl (fun n c => addCount n (counts c)) 0

theorem foldl_addResource {counts : Counter → Nat} {c : Counter} (hc : counts c ≤ maxCount)
    (rs : List TableResource) :
    rs.foldl addResource counts c =
      min maxCount (counts c + demandOf (fun k => decide (k.counter = c)) rs) := by
  induction rs generalizing counts with
  | nil =>
    rw [foldl_nil, demandOf_nil]
    omega
  | cons r rs ih =>
    rw [foldl_cons, demandOf_cons]
    by_cases h : r.kind.counter = c
    · subst h
      have hadd : addResource counts r r.kind.counter = addCount (counts r.kind.counter) r.length :=
        Function.update_self ..
      rw [ih (by rw [hadd]; exact Nat.min_le_left _ _), hadd, addCount]
      simp only [decide_true, if_true]
      omega
    · have hadd : addResource counts r c = counts c := Function.update_of_ne (Ne.symm h) ..
      rw [ih (by rwa [hadd]), hadd]
      simp [h]

theorem foldl_addCount (d : Counter → Nat) (cs : List Counter) {n : Nat} (hn : n ≤ maxCount) :
    cs.foldl (fun n c => addCount n (min maxCount (d c))) n =
      min maxCount (n + (cs.map d).sum) := by
  induction cs generalizing n with
  | nil => simp [hn]
  | cons c cs ih =>
    have hadd : addCount n (min maxCount (d c)) ≤ maxCount := Nat.min_le_left _ _
    rw [foldl_cons, ih hadd, map_cons, sum_cons, addCount]
    omega

/-- Kinds with one of several counters are counted apart. -/
theorem demandOf_counters {cs : List Counter} (hcs : cs.Nodup) (rs : List TableResource) :
    demandOf (fun k => decide (k.counter ∈ cs)) rs =
      (cs.map fun c => demandOf (fun k => decide (k.counter = c)) rs).sum := by
  induction cs with
  | nil => simp [demandOf]
  | cons c cs ih =>
    rw [nodup_cons] at hcs
    have hsplit : (fun k : ResourceKind => decide (k.counter ∈ c :: cs)) =
        fun k => decide (k.counter = c) || decide (k.counter ∈ cs) := by
      funext k
      simp [mem_cons]
    rw [hsplit, map_cons, sum_cons, ← ih hcs.2]
    refine demandOf_or (fun k hk => ?_) rs
    simp only [decide_eq_true_eq] at hk
    exact hcs.1 (hk.1 ▸ hk.2)

theorem together_tally {cs : List Counter} (hcs : cs.Nodup) (t : ResourceTable) :
    together t.tally cs = min maxCount (t.demand fun k => decide (k.counter ∈ cs)) := by
  have htally : t.tally =
      fun c => min maxCount (t.demand fun k => decide (k.counter = c)) := by
    funext c
    rw [tally, foldl_addResource (Nat.zero_le _), Nat.zero_add]
    rfl
  rw [together, htally, foldl_addCount _ cs (Nat.zero_le _), Nat.zero_add]
  simp only [demand, demandOf_counters hcs]

/-- Each limit counts the kinds of its counters. -/
theorem limitedKinds_counters (target : Target) :
    List.Forall₂ (fun k cs => cs.Nodup ∧ k.counts = fun kind => decide (kind.counter ∈ cs))
      target.limitedKinds target.counters := by
  cases target with
  | direct3d12 =>
    refine .cons ⟨by decide, ?_⟩ (.cons ⟨by decide, ?_⟩ (.cons ⟨by decide, ?_⟩
      (.cons ⟨by decide, ?_⟩ .nil))) <;> (funext kind; cases kind <;> rfl)
  | vulkan =>
    refine .cons ⟨by decide, ?_⟩ (.cons ⟨by decide, ?_⟩ (.cons ⟨by decide, ?_⟩
      (.cons ⟨by decide, ?_⟩ (.cons ⟨by decide, ?_⟩ .nil)))) <;> (funext kind; cases kind <;> rfl)
  | metal =>
    refine .cons ⟨by decide, ?_⟩ (.cons ⟨by decide, ?_⟩ (.cons ⟨by decide, ?_⟩ .nil)) <;>
      (funext kind; cases kind <;> rfl)

theorem map_countOf (t : ResourceTable) (target : Target) :
    target.limitedKinds.map t.countOf = target.counters.map (together t.tally) := by
  rw [← forall₂_eq_eq_eq, forall₂_map_left_iff, forall₂_map_right_iff]
  refine (limitedKinds_counters target).imp fun k cs hk => ?_
  rw [countOf_eq, together_tally hk.1, hk.2]

/-- A table passes exactly if, for each limit of the target, the resources that it counts together
take no more indices than its ceiling. So a table that fails still does when resources are added or
become longer. It makes no difference whether the sum or every single addition stops at the largest
count. -/
theorem checkLimits_exact (t : ResourceTable) (target : Target) :
    (t.checkLimits target false = .ok () ↔
      ∀ k ∈ target.limitedKinds, t.demand k.counts ≤ k.ceiling) ∧
    (∀ t' : ResourceTable, t.Grows t' → (∃ e, t.checkLimits target false = .error e) →
      ∃ e, t'.checkLimits target false = .error e) ∧
    target.limitedKinds.map t.countOf = target.counters.map (together t.tally) := by
  refine ⟨checkLimits_eq_ok, fun t' hgrows => ?_, map_countOf t target⟩
  rintro ⟨e, he⟩
  cases h : t'.checkLimits target false with
  | error e' => exact ⟨e', rfl⟩
  | ok _ => cases he.symm.trans (checkLimits_of_grows hgrows h)

def samplersAndTextures (samplers textures : Nat) : ResourceTable :=
  ⟨"Lit", [⟨.persistent, none, [⟨"smooth", .sampler false, 0, samplers⟩,
    ⟨"maps", .texture .tex2D .void, samplers, textures⟩], samplers + textures⟩]⟩

/-- Seventeen samplers are too many, with whatever comes on top of them, and so are so many textures
that they cannot be counted. -/
theorem checkLimits_exact_samplersAndTextures :
    (samplersAndTextures 16 128).checkLimits .direct3d12 false = .ok () ∧
    (∃ e, (samplersAndTextures 17 1).checkLimits .direct3d12 false = .error e) ∧
    (∃ e, (samplersAndTextures 20 4).checkLimits .direct3d12 false = .error e) ∧
    (samplersAndTextures 16 (2 ^ 32 + 4)).checkLimits .direct3d12 false ≠ .ok () := by
  have hfails : ∃ e, (samplersAndTextures 17 1).checkLimits .direct3d12 false = .error e := ⟨_, rfl⟩
  refine ⟨(checkLimits_exact _ _).1.2 (by decide), hfails, ?_, fun h => ?_⟩
  · refine (checkLimits_exact _ _).2.1 _ ?_ hfails
    exact .cons (by decide) (.cons (by decide) .nil)
  · have hle := (checkLimits_exact _ _).1.1 h _ (.tail _ (.head _))
    exact absurd hle (by decide)

end ResourceTable
end ShaderDialect
