import ShaderDialect.Generate
import ShaderDialect.Proofs.ResourceTable.Limits
import ShaderDialect.Proofs.ResourceTable.Tables

/-! Where a shader's resources are bound: on every target, the bindings of a table take places that
no other binding of the table takes. -/
namespace ShaderDialect

open Success

/-- The places of a target that a binding takes. A descriptor holds a whole array, anything else one
element. -/
def Binding.places (b : Binding) : List Slot :=
  match b.slot with
  | .register kind index space =>
    (List.range' index b.resource.length).map fun n => .register kind n space
  | .descriptor set binding => [.descriptor set binding]
  | .member buffer id => (List.range' id b.resource.length).map fun n => .member buffer n
  | .argument kind index => (List.range' index b.resource.length).map fun n => .argument kind n

namespace ResourceTable
variable {sharedSets : List SharedSet} {d : TableDecl} {s : TableSet} {t : ResourceTable}

theorem exists_block (h : d.resolve sharedSets = .ok t) (hs : s ∈ t.sets) :
    ∃ (block : SetBlock) (scope : String) (shared : Option String),
      block.resolve scope shared = .ok s ∧
      (.own block ∈ d.sets ∨ ∃ x ∈ sharedSets, x.set = block) := by
  obtain ⟨source, hsource, hset⟩ := TableDecl.exists_source h hs
  cases source with
  | own block => exact ⟨block, _, _, hset, .inl hsource⟩
  | shared name loc =>
    obtain ⟨x, hx, -, -, hset⟩ := TableDecl.resolveSet_shared hset
    exact ⟨_, _, _, hset, .inr ⟨x, hx, rfl⟩⟩

theorem consecutive_of_resolve (h : d.resolve sharedSets = .ok t) (hs : s ∈ t.sets) :
    Consecutive 0 s.resources s.count := by
  obtain ⟨block, scope, shared, hblock, -⟩ := exists_block h hs
  exact (SetBlock.place_eq_ok (SetBlock.resolve_eq_ok.1 hblock).1).2

/-- Of two resources of a table, the later one has a later set or later indices. -/
theorem apart (hw : t.WellFormed) (hc : ∀ s ∈ t.sets, Consecutive 0 s.resources s.count) :
    t.resources.Pairwise fun x y =>
      x.1.index < y.1.index ∨ x.1 = y.1 ∧ x.2.index + x.2.length ≤ y.2.index := by
  rw [resources, List.pairwise_flatMap]
  refine ⟨fun s hs => ?_, hw.increasing.imp fun {s s'} hlt x hx y hy => ?_⟩
  · rw [List.pairwise_map]
    exact (hc s hs).ordered.imp fun h => .inr ⟨rfl, h⟩
  · obtain ⟨r, -, rfl⟩ := List.mem_map.1 hx
    obtain ⟨r', -, rfl⟩ := List.mem_map.1 hy
    exact .inl hlt

end ResourceTable

/-- Resources are bound in order, and slots that tell later ones from earlier ones make bindings
disjoint. -/
theorem Emit.bindings_apart {t : ResourceTable} {slot : Frequency → TableResource → Slot}
    (hw : t.WellFormed) (hc : ∀ s ∈ t.sets, Consecutive 0 s.resources s.count)
    (hslot : ∀ x ∈ t.resources, ∀ y ∈ t.resources,
      (x.1.index < y.1.index ∨ x.1 = y.1 ∧ x.2.index + x.2.length ≤ y.2.index) →
      List.Disjoint (Binding.mk x.1 x.2 (slot x.1 x.2)).places
        (Binding.mk y.1 y.2 (slot y.1 y.2)).places) :
    (bindings t slot).map (fun b => (b.frequency, b.resource)) = t.resources ∧
    (∀ b ∈ bindings t slot, b.slot = slot b.frequency b.resource) ∧
    (bindings t slot).Pairwise fun b b' => List.Disjoint b.places b'.places := by
  refine ⟨by simp [bindings, Function.comp_def], fun b hb => ?_, ?_⟩
  · obtain ⟨x, -, rfl⟩ := List.mem_map.1 hb
    rfl
  · rw [bindings, List.pairwise_map]
    exact (ResourceTable.apart hw hc).imp_of_mem fun hx hy h => hslot _ hx _ hy h

namespace Msl
variable (k : ArgumentClass)

theorem Taken.count_add (taken : Taken) (n : Nat) (k k' : ArgumentClass) :
    (taken.add n k).count k' = taken.count k' + if k = k' then n else 0 := by
  cases k <;> cases k' <;> rfl

@[simp] theorem Taken.count_none : Taken.none.count k = 0 := by cases k <;> rfl

/-- How many arguments of a class some resources take. -/
def demand (k : ArgumentClass) (rs : List (Frequency × TableResource)) : Nat :=
  ((rs.filter fun x => ArgumentClass.ofKind x.2.kind = k).map (·.2.length)).sum

theorem demand_cons (x : Frequency × TableResource) (rs : List (Frequency × TableResource)) :
    demand k (x :: rs) =
      (if ArgumentClass.ofKind x.2.kind = k then x.2.length else 0) + demand k rs := by
  by_cases h : ArgumentClass.ofKind x.2.kind = k <;> simp [demand, h]

section Direct
variable {taken : Taken} {rs : List (Frequency × TableResource)}

theorem map_directBindings :
    (directBindings taken rs).map (fun b => (b.frequency, b.resource)) = rs := by
  induction rs generalizing taken with
  | nil => rfl
  | cons x rs ih => rw [directBindings, List.map_cons, ih]

/-- A binding takes arguments that are free, and no more than its class needs in all. -/
theorem mem_directBindings (hlen : ∀ x ∈ rs, 1 ≤ x.2.length) {b : Binding}
    (hb : b ∈ directBindings taken rs) :
    ∃ n, b.slot = .argument (.ofKind b.resource.kind) n ∧
      taken.count (.ofKind b.resource.kind) ≤ n ∧
      n + b.resource.length ≤ taken.count (.ofKind b.resource.kind) +
        demand (.ofKind b.resource.kind) rs := by
  induction rs generalizing taken with
  | nil => cases hb
  | cons x rs ih =>
    rw [List.forall_mem_cons] at hlen
    rw [demand_cons]
    rcases List.mem_cons.1 hb with rfl | hb
    · refine ⟨_, rfl, Nat.le_refl _, ?_⟩
      simp only [if_true]
      omega
    · obtain ⟨n, hslot, hlow, hhigh⟩ := ih hlen.2 hb
      rw [Taken.count_add, Nat.max_eq_left hlen.1] at hlow hhigh
      exact ⟨n, hslot, by omega, by omega⟩

theorem directBindings_disjoint (hlen : ∀ x ∈ rs, 1 ≤ x.2.length) :
    (directBindings taken rs).Pairwise fun b b' => List.Disjoint b.places b'.places := by
  induction rs generalizing taken with
  | nil => exact .nil
  | cons x rs ih =>
    rw [List.forall_mem_cons] at hlen
    refine List.pairwise_cons.2 ⟨fun b hb => ?_, ih hlen.2⟩
    obtain ⟨n, hslot, hlow, -⟩ := mem_directBindings hlen.2 hb
    rw [Taken.count_add, Nat.max_eq_left hlen.1] at hlow
    intro place hplace hplace'
    simp only [Binding.places, hslot, List.mem_map, List.mem_range'_1] at hplace hplace'
    obtain ⟨m, hm, rfl⟩ := hplace
    obtain ⟨m', hm', he⟩ := hplace'
    obtain ⟨hk, rfl⟩ := Slot.argument.inj he
    rw [hk, if_pos rfl] at hlow
    omega

end Direct

/-- How many arguments of a class an entry point can have. -/
def ceiling : ArgumentClass → Nat
  | .texture => 128
  | .buffer => 31
  | .sampler => 16

/-- A table that is within the limits needs no more arguments than there are. -/
theorem demand_le_ceiling {t : ResourceTable} (h : t.checkLimits .metal false = .ok ())
    (k : ArgumentClass) : demand k t.resources ≤ ceiling k := by
  have hkind : ∃ l ∈ Target.limitedKinds .metal, l.ceiling = ceiling k ∧
      ∀ r, l.counts r = decide (ArgumentClass.ofKind r = k) := by
    cases k with
    | texture => exact ⟨_, .head _, rfl, fun r => by cases r <;> rfl⟩
    | buffer => exact ⟨_, .tail _ (.head _), rfl, fun r => by cases r <;> rfl⟩
    | sampler => exact ⟨_, .tail _ (.tail _ (.head _)), rfl, fun r => by cases r <;> rfl⟩
  obtain ⟨l, hl, hceiling, hcounts⟩ := hkind
  have hle := ResourceTable.checkLimits_eq_ok.1 h l hl
  rw [hceiling, ResourceTable.demand, ResourceTable.demandOf, List.filter_map, List.map_map] at hle
  simpa only [demand, Function.comp_def, hcounts] using hle

theorem bindings_of_generate {u : ShaderUnit} {options : EmitOptions} {shader : Shader}
    {t : ResourceTable} (h : generate options u = .ok shader) (hu : u.table = some t) :
    shader.info.bindings = bindings (usesArgumentBuffers options u) t ∧
      t.checkLimits .metal (usesArgumentBuffers options u) = .ok () := by
  simp only [generate, hu, bind_eq_ok, pure_eq_ok] at h
  obtain ⟨_, htable, _, -, _, -, _, -, rfl⟩ := h
  simp only [tableParts, bind_eq_ok] at htable
  obtain ⟨_, hlimits, -⟩ := htable
  exact ⟨by simp [ShaderInfo.ofUnit, hu], hlimits⟩

end Msl
end ShaderDialect
