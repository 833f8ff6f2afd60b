import ShaderDialect.Proofs.Interface.Agreement
import ShaderDialect.Proofs.ResourceTable.Slots

/-! Counters that run over all fields of a struct or over all resources of a table. What is declared
has a bounded length, but there may be any number of declarations. So locations start again from
zero after the last one exactly if the fields have too many elements, and arguments are only bounded
where the limits of a table are checked: not if the table is in argument buffers. -/
namespace ShaderDialect

open List Success

def SetSource.own? : SetSource → Option SetBlock
  | own block => some block
  | shared _ _ => none

def Item.setBlocks : Item → List SetBlock
  | table d => d.sets.filterMap SetSource.own?
  | sharedSet s => [s.set]
  | _ => []

/-- All resources are declared with admissible lengths. -/
def SetBlock.Bounded (b : SetBlock) : Prop := ∀ d ∈ b.decls, Admissible d.length

namespace Reader
variable {fuel : Nat} {loc : Loc} {c c' : Cursor}

theorem admissible_resourceDecl {d : ResourceDecl} (h : Reads resourceDecl c d c') :
    Admissible d.length := by
  simp only [resourceDecl, reads_bind] at h
  obtain ⟨_, _, -, ⟨loc, args⟩, _, -, _, _, -, _, _, -, _, _, -, ⟨name, length⟩, _, hname, hpure⟩ :=
    h
  obtain ⟨rfl, -⟩ := reads_pure.1 hpure
  exact length_of_nameArgument hname

theorem admissible_declarations {finish : String} {start : Loc} {ds : List ResourceDecl}
    (h : Reads (declarations finish start fuel) c ds c') : ∀ d ∈ ds, Admissible d.length := by
  induction fuel generalizing c c' ds with
  | zero => simp [declarations] at h
  | succ fuel ih =>
    rw [declarations, declarationsRound] at h
    obtain ⟨ended, c₁, -, h⟩ := reads_bind.1 h
    split at h
    · obtain ⟨rfl, -⟩ := reads_pure.1 h
      simp
    obtain ⟨c₂, _, -, h⟩ := reads_bind.1 h
    split at h
    · simp at h
    split at h
    · split at h
      · simp only [reads_bind] at h
        obtain ⟨d, _, hd, _, _, -, more, _, hmore, hpure⟩ := h
        obtain ⟨rfl, -⟩ := reads_pure.1 hpure
        exact forall_mem_cons.2 ⟨admissible_resourceDecl hd, ih hmore⟩
      · simp at h
    · simp at h
    · simp at h

theorem bounded_ownSet {frequency : Frequency} {b : SetBlock}
    (h : Reads (ownSet frequency loc) c b c') : b.Bounded := by
  simp only [ownSet, reads_bind, reads_withFuel] at h
  obtain ⟨_, _, -, decls, _, hdecls, _, _, -, _, _, -, h⟩ := h
  split at h
  · simp at h
  · simp only [reads_bind] at h
    obtain ⟨_, _, -, hpure⟩ := h
    obtain ⟨rfl, -⟩ := reads_pure.1 hpure
    exact admissible_declarations hdecls

theorem bounded_tableSets {name : String} {sets : List SetSource}
    (h : Reads (tableSets name loc fuel) c sets c') :
    ∀ b ∈ sets.filterMap SetSource.own?, b.Bounded := by
  induction fuel generalizing c c' sets with
  | zero => simp [tableSets] at h
  | succ fuel ih =>
    rw [tableSets, tableSetsRound] at h
    obtain ⟨c₁, _, -, h⟩ := reads_bind.1 h
    split at h
    · simp at h
    split at h
    · simp only [reads_bind] at h
      obtain ⟨⟨setLoc, args⟩, _, -, _, _, -, f, _, -, own, _, hown, more, _, hmore, hpure⟩ := h
      obtain ⟨rfl, -⟩ := reads_pure.1 hpure
      exact forall_mem_cons.2 ⟨bounded_ownSet hown, ih hmore⟩
    · simp only [reads_bind] at h
      obtain ⟨⟨setLoc, args⟩, _, -, _, _, -, shared, _, -, _, _, -, more, _, hmore, hpure⟩ := h
      obtain ⟨rfl, -⟩ := reads_pure.1 hpure
      simpa [filterMap_cons, SetSource.own?] using ih hmore
    · simp only [reads_bind] at h
      obtain ⟨⟨endLoc, args⟩, _, -, found, _, -, h⟩ := h
      split at h
      · simp at h
      · obtain ⟨_, _, -, hpure⟩ := reads_bind.1 h
        obtain ⟨rfl, -⟩ := reads_pure.1 hpure
        simp
    · simp at h
    · simp at h

theorem bounded_table {d : TableDecl} (h : Reads table c d c') :
    ∀ b ∈ (Item.table d).setBlocks, b.Bounded := by
  simp only [table, reads_bind, reads_withFuel] at h
  obtain ⟨⟨loc, args⟩, _, -, _, _, -, name, _, -, sets, _, hsets, hpure⟩ := h
  obtain ⟨rfl, -⟩ := reads_pure.1 hpure
  exact bounded_tableSets hsets

theorem bounded_sharedSet {s : SharedSet} (h : Reads sharedSet c s c') : s.set.Bounded := by
  simp only [sharedSet, reads_bind, reads_withFuel] at h
  obtain ⟨⟨loc, args⟩, _, -, _, _, -, name, _, -, f, _, -, decls, _, hdecls, ⟨endLoc, ends⟩, _, -,
    found, _, -, h⟩ := h
  split at h
  · simp at h
  · obtain ⟨_, _, -, hpure⟩ := reads_bind.1 h
    obtain ⟨rfl, -⟩ := reads_pure.1 hpure
    exact admissible_declarations hdecls

end Reader

theorem Program.bounded_of_read {file : String} {tokens : List Placed} {p : Program}
    (h : Program.read file tokens = .ok p) : ∀ i ∈ p.allItems, ∀ b ∈ i.setBlocks, b.Bounded := by
  refine forall_allItems (fun _ hread => ?_) (fun _ e _ => by simp [Item.setBlocks])
    (by simp [Item.setBlocks]) (by simp [Item.setBlocks]) h
  cases hread with
  | table htable => exact Reader.bounded_table htable
  | sharedSet hshared => exact forall_mem_singleton.2 (Reader.bounded_sharedSet hshared)
  | _ => simp [Declaration.item, Item.setBlocks]

/-- The resources of a table are declared, so that their lengths are admissible. -/
theorem Program.admissible_of_mem_tables {file : String} {tokens : List Placed} {p : Program}
    {ts : ResourceTables} {t : ResourceTable} (h : Program.read file tokens = .ok p)
    (hts : p.resolveTables = .ok ts) (ht : t ∈ ts.tables) :
    ∀ x ∈ t.resources, Admissible x.2.length := by
  obtain ⟨d, hd, rfl⟩ := Program.resolveTables_eq_ok hts
  obtain ⟨decl, hdecl, hresolve⟩ := (ResourceTables.mem_tables hd.tables.nodup).1 ht
  have hitem := Program.mem_table?.1 (hd.tables.seen_of_kept _ hdecl)
  rintro ⟨f, r⟩ hfr
  obtain ⟨s, hs, rfl, hr⟩ := ResourceTable.mem_resources.1 hfr
  obtain ⟨b, scope, shared, hb, hsource⟩ := ResourceTable.exists_block hresolve hs
  have hbounded : b.Bounded := by
    rcases hsource with hown | ⟨x, hx, rfl⟩
    · exact bounded_of_read h _ hitem b (mem_filterMap.2 ⟨_, hown, rfl⟩)
    · have hshared := Program.mem_sharedSet?.1 (hd.sharedSets.seen_of_kept x hx)
      exact bounded_of_read h _ hshared _ mem_cons_self
  have hmem : r.signature ∈ b.decls.map ResourceDecl.signature := by
    rw [← (SetBlock.place_eq_ok (SetBlock.resolve_eq_ok.1 hb).1).1]
    exact mem_map_of_mem hr
  obtain ⟨decl, hdecl, heq⟩ := mem_map.1 hmem
  have hlength : decl.length = r.length := congrArg (·.2.2) heq
  exact hlength ▸ hbounded decl hdecl

/-- The parts of what is declared are no more than its declarations can have. -/
theorem sum_lt_of_admissible {lengths : List Nat} (h : ∀ n ∈ lengths, Admissible n)
    (hfew : lengths.length < 4096) : lengths.sum < 2 ^ 32 := by
  have hsum := sum_le_card_nsmul lengths Reader.maxArrayLength fun n hn => (h n hn).2
  simp only [smul_eq_mul, Reader.maxArrayLength] at hsum
  omega

namespace Interface
variable {site : Site} {output : Bool} {struct : String} {next : Nat} {before after : List Field}
  {vs : List Varying}

def locationAfter (fs : List Field) : Nat := fs.foldl freeAfter 0

theorem foldl_freeAfter (hnext : next < locationRange) (fs : List Field) :
    fs.foldl freeAfter next = (next + Field.locatedElements fs) % locationRange := by
  induction fs generalizing next with
  | nil => exact (Nat.mod_eq_of_lt hnext).symm
  | cons f fs ih =>
    rw [foldl_cons, Field.locatedElements_cons, freeAfter]
    split
    · rw [ih (Nat.mod_lt _ locationRange_pos), Nat.mod_add_mod, Nat.add_assoc]
    · rw [ih hnext, Nat.zero_add]

theorem exists_varyings_after (h : varyings site output struct next (before ++ after) = .ok vs) :
    ∃ vs', varyings site output struct (before.foldl freeAfter next) after = .ok vs' ∧
      vs' <:+ vs := by
  induction before generalizing next vs with
  | nil => exact ⟨vs, h, suffix_refl vs⟩
  | cons f before ih =>
    obtain ⟨-, rest, hrest, rfl⟩ := varyings_cons.1 h
    obtain ⟨vs', hvs', hsuffix⟩ := ih hrest
    exact ⟨vs', hvs', hsuffix.trans (suffix_cons _ rest)⟩

/-- What the counter of locations does in a struct. -/
structure CountsLocations (d : StructDef) : Prop where
  /-- Behind some of the fields, a stage goes on with the location after them. -/
  resumes : ∀ site output vs before after, d.fields = before ++ after →
    varyings site output d.name 0 d.fields = .ok vs →
      ∃ vs', varyings site output d.name (locationAfter before) after = .ok vs' ∧ vs' <:+ vs
  /-- It has the number of all elements before, or has started again from zero. -/
  wraps : ∀ before, before <+: d.fields →
    locationAfter before = Field.locatedElements before % locationRange
  exact : (∀ before, before <+: d.fields → locationAfter before = Field.locatedElements before) ↔
    Field.locatedElements d.fields < locationRange
  few : (d.fields.filter Field.isLocated).length < 4096 →
    Field.locatedElements d.fields < locationRange

theorem countsLocations {d : StructDef} (hsolid : ∀ f ∈ d.fields, f.Solid) : CountsLocations d := by
  have hwraps (fs : List Field) : locationAfter fs = Field.locatedElements fs % locationRange := by
    rw [locationAfter, foldl_freeAfter locationRange_pos, Nat.zero_add]
  refine ⟨fun site output vs before after hfields h => ?_, fun before _ => hwraps before, ?_, ?_⟩
  · rw [hfields] at h
    exact exists_varyings_after h
  · constructor
    · intro h
      rw [← h d.fields (prefix_refl _), hwraps]
      exact Nat.mod_lt _ locationRange_pos
    · rintro h before ⟨after, hfields⟩
      rw [hwraps]
      refine Nat.mod_eq_of_lt (Nat.lt_of_le_of_lt ?_ h)
      simp [← hfields, Field.locatedElements]
  · intro hfew
    refine sum_lt_of_admissible (fun n hn => ?_) (by simpa using hfew)
    obtain ⟨f, hf, rfl⟩ := mem_map.1 hn
    exact (hsolid f (mem_filter.1 hf).1).1

end Interface

namespace Msl
variable (taken : Taken)

def Taken.after (taken : Taken) (x : Frequency × TableResource) : Taken :=
  taken.add (max x.2.length 1) (.ofKind x.2.kind)

def takenBy (rs : List (Frequency × TableResource)) : Taken := rs.foldl Taken.after .none

theorem directBindings_append (before after : List (Frequency × TableResource)) :
    directBindings taken (before ++ after) =
      directBindings taken before ++ directBindings (before.foldl Taken.after taken) after := by
  induction before generalizing taken with
  | nil => rfl
  | cons x before ih =>
    rw [cons_append, directBindings, ih, directBindings, foldl_cons]
    rfl

theorem count_foldl_after (k : ArgumentClass) {rs : List (Frequency × TableResource)}
    (hlen : ∀ x ∈ rs, 1 ≤ x.2.length) :
    (rs.foldl Taken.after taken).count k = taken.count k + demand k rs := by
  induction rs generalizing taken with
  | nil => rfl
  | cons x rs ih =>
    rw [forall_mem_cons] at hlen
    rw [foldl_cons, ih _ hlen.2, Taken.after, Taken.count_add, Nat.max_eq_left hlen.1, demand_cons,
      Nat.add_assoc]

/-- What the counters of arguments do in a table. -/
structure CountsArguments (t : ResourceTable) : Prop where
  /-- Behind some of the resources, the others go on with the arguments after them. -/
  resumes : ∀ before after, t.resources = before ++ after → directBindings .none t.resources =
    directBindings .none before ++ directBindings (takenBy before) after
  sums : ∀ before, before <+: t.resources → ∀ k, (takenBy before).count k = demand k before
  checked : ∀ u options shader, u.target = .metal → u.table = some t →
    u.generate options = .ok shader → usesArgumentBuffers options u = false →
      ∀ before, before <+: t.resources → ∀ k, (takenBy before).count k ≤ ceiling k
  exact : (∀ before, before <+: t.resources → ∀ k, (takenBy before).count k < 2 ^ 32) ↔
    ∀ k, demand k t.resources < 2 ^ 32
  few : t.resources.length < 4096 → ∀ k, demand k t.resources < 2 ^ 32

theorem countsArguments {t : ResourceTable} (hlen : ∀ x ∈ t.resources, Admissible x.2.length) :
    CountsArguments t := by
  have hsums {before : List (Frequency × TableResource)} (hbefore : before <+: t.resources)
      (k : ArgumentClass) : (takenBy before).count k = demand k before := by
    rw [takenBy, count_foldl_after _ _ fun x hx => (hlen x (hbefore.subset hx)).1, Taken.count_none,
      Nat.zero_add]
  have hle {before : List (Frequency × TableResource)} (hbefore : before <+: t.resources)
      (k : ArgumentClass) : (takenBy before).count k ≤ demand k t.resources := by
    obtain ⟨after, happend⟩ := id hbefore
    rw [hsums hbefore, ← happend]
    simp [demand]
  refine ⟨fun before after happend => ?_, fun before hbefore => hsums hbefore,
    fun u options shader hu ht hg hbuffers before hbefore k => ?_, ⟨fun h k => ?_, ?_⟩, ?_⟩
  · rw [happend]
    exact directBindings_append _ _ _
  · rw [ShaderUnit.generate, hu] at hg
    have hlimits := (bindings_of_generate hg ht).2
    rw [hbuffers] at hlimits
    exact Nat.le_trans (hle hbefore k) (demand_le_ceiling hlimits k)
  · rw [← hsums (prefix_refl _)]
    exact h _ (prefix_refl _) k
  · intro h before hbefore k
    exact Nat.lt_of_le_of_lt (hle hbefore k) (h k)
  · intro hfew k
    refine sum_lt_of_admissible (fun n hn => ?_) ?_
    · obtain ⟨x, hx, rfl⟩ := mem_map.1 hn
      exact hlen x (mem_filter.1 hx).1
    · rw [length_map]
      exact Nat.lt_of_le_of_lt (length_filter_le _ _) hfew

end Msl

namespace Program
variable {file : String} {tokens : List Placed} {p : Program}

/-- Of all counters that run over a program, only two could leave 32 bits. The locations of a struct
do exactly if its located fields have 2 ^ 32 elements or more, and then they start again from zero.
The arguments of a table do exactly if its resources of one class need so many, which no table does
whose limits are checked. It takes at least 4096 declarations. -/
theorem counters_exact (hp : Program.read file tokens = .ok p) :
    (∀ fileName outputs o target s, p.outputs fileName = .ok outputs → o ∈ outputs →
      Selection.ofOutput p o target = .ok s → ∀ d ∈ s.structs, Interface.CountsLocations d) ∧
    ∀ ts t, p.resolveTables = .ok ts → t ∈ ts.tables → Msl.CountsArguments t := by
  refine ⟨fun fileName outputs o target s houtputs ho hs d hd => ?_, fun ts t hts ht => ?_⟩
  · exact Interface.countsLocations (Selection.solid_structs hp houtputs ho hs d hd)
  · exact Msl.countsArguments (admissible_of_mem_tables hp hts ht)

def countedShader : List Placed :=
  Interface.placedTokens "#vert one\nSTRUCT(Lit)\x7bDATA(float4, position, SV_Position)\n" ++
    Interface.placedTokens "DATA(float4, tints[2], COLOR)DATA(float, depth, None)\x7d\n#end\n" ++
    Interface.placedTokens "BEGIN_SRT(Maps)BEGIN_SRT_SET(Persistent)\n" ++
    Interface.placedTokens "DECL_TEXTURE(Persistent, Tex2D(float4), maps[3])\n" ++
    Interface.placedTokens "DECL_TEXTURE(Persistent, Tex2D(float4), noise)\n" ++
    Interface.placedTokens "END_SRT_SET(Persistent)END_SRT(Maps)"

def countedParts : Except Failure (List StructDef × List ResourceTable) := do
  let p ← Program.read "m" countedShader
  let outputs ← p.outputs "m"
  let ts ← p.resolveTables
  match outputs with
  | [o] => return ((← Selection.ofOutput p o .metal).structs, ts.tables)
  | _ => return ([], [])

theorem counters_exact_countedShader :
    ∃ d t, countedParts = .ok ([d], [t]) ∧ Interface.CountsLocations d ∧
      Field.locatedElements d.fields = 3 ∧ Msl.CountsArguments t ∧
      Msl.demand .texture t.resources = 4 := by
  have hparts : (countedParts.map fun parts => (parts.1.map fun d => Field.locatedElements d.fields,
      parts.2.map fun t => Msl.demand .texture t.resources)) = .ok ([3], [4]) := by decide +kernel
  cases hok : countedParts with
  | error e =>
    rw [hok] at hparts
    cases hparts
  | ok parts =>
    obtain ⟨structs, tables⟩ := parts
    simp only [hok, Except.map, Except.ok.injEq, Prod.mk.injEq, map_eq_singleton_iff] at hparts
    obtain ⟨⟨d, rfl, hd⟩, ⟨t, rfl, ht⟩⟩ := hparts
    simp only [countedParts, bind_eq_ok] at hok
    obtain ⟨p, hp, outputs, houtputs, ts, hts, h⟩ := hok
    split at h
    · next o =>
      simp only [bind_eq_ok, pure_eq_ok, Prod.mk.injEq] at h
      obtain ⟨s, hs, hstructs, htables⟩ := h
      refine ⟨d, t, rfl, ?_, hd, ?_, ht⟩
      · exact (counters_exact hp).1 _ _ o _ s houtputs mem_cons_self hs d (by simp [hstructs])
      · exact (counters_exact hp).2 ts t hts (by simp [htables])
    · cases h

end Program
end ShaderDialect
