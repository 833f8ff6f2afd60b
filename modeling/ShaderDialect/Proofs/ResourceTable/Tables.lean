import Mathlib.Data.List.Nodup
import ShaderDialect.Proofs.ResourceTable.Indices
import ShaderDialect.Proofs.ResourceTable.Sharing
import ShaderDialect.Proofs.ResourceTable.Signatures

/-! The tables of a program. A table that could be resolved lists the declarations of its sets, own
and shared ones, in an order and under names that make every look-up unambiguous; every other
declared table is reported as failed. -/
namespace ShaderDialect

open List Success

section Keys
variable {α κ β : Type} [BEq κ] [LawfulBEq κ] {key : α → κ} {l : List α}

theorem find?_eq_some_of_nodup (h : (l.map key).Nodup) {k : κ} {a : α} :
    l.find? (key · == k) = some a ↔ a ∈ l ∧ key a = k := by
  constructor
  · intro hf
    exact ⟨mem_of_find?_eq_some hf, by simpa using find?_some hf⟩
  · rintro ⟨ha, rfl⟩
    induction l with
    | nil => cases ha
    | cons b l ih =>
      rw [map_cons, nodup_cons] at h
      rcases mem_cons.1 ha with rfl | ha
      · simp
      · have hne : key b ≠ key a := fun he => h.1 (he ▸ mem_map_of_mem ha)
        rw [find?_cons_of_neg (by simpa using hne)]
        exact ih h.2 ha

theorem lookup_of_nodup (h : (l.map key).Nodup) {g : α → β} {a : α} (ha : a ∈ l) :
    (l.map fun a => (key a, g a)).lookup (key a) = some (g a) := by
  induction l with
  | nil => cases ha
  | cons b l ih =>
    rw [map_cons, nodup_cons] at h
    rw [map_cons, lookup_cons]
    rcases mem_cons.1 ha with rfl | ha
    · simp
    · have hne : key a ≠ key b := fun he => h.1 (he ▸ mem_map_of_mem ha)
      rw [beq_eq_false_iff_ne.2 hne]
      exact ih h.2 ha

end Keys

/-- Of a list, the first element of each name is kept, and all others agree with theirs. -/
structure Firsts {α γ : Type} (name : α → String) (compared : α → γ) (seen kept : List α) :
    Prop where
  nodup : (kept.map name).Nodup
  seen_of_kept : ∀ a ∈ kept, a ∈ seen
  kept_of_seen : ∀ a ∈ seen, ∃ b ∈ kept, name b = name a ∧ compared b = compared a
  first : ∀ n, kept.find? (name · == n) = seen.find? (name · == n)

namespace Firsts
variable {α γ : Type} {name : α → String} {compared : α → γ} {seen kept : List α} {a b : α}

theorem add_new (h : Firsts name compared seen kept)
    (ha : kept.find? (name · == name a) = none) :
    Firsts name compared (seen ++ [a]) (kept ++ [a]) := by
  rw [find?_eq_none] at ha
  refine ⟨?_, fun x hx => ?_, fun x hx => ?_, fun n => ?_⟩
  · rw [map_append, nodup_append]
    refine ⟨h.nodup, nodup_singleton _, fun n hn m hm => ?_⟩
    obtain ⟨x, hx, rfl⟩ := mem_map.1 hn
    obtain rfl := mem_singleton.1 hm
    simpa using ha x hx
  · rcases mem_append.1 hx with hx | hx
    · exact mem_append_left _ (h.seen_of_kept x hx)
    · exact mem_append_right _ hx
  · rcases mem_append.1 hx with hx | hx
    · obtain ⟨y, hy, hxy⟩ := h.kept_of_seen x hx
      exact ⟨y, mem_append_left _ hy, hxy⟩
    · exact ⟨x, mem_append_right _ hx, rfl, rfl⟩
  · rw [find?_append, find?_append, h.first n]

theorem add_again (h : Firsts name compared seen kept)
    (ha : kept.find? (name · == name a) = some b) (hc : compared b = compared a) :
    Firsts name compared (seen ++ [a]) kept := by
  refine ⟨h.nodup, fun x hx => mem_append_left _ (h.seen_of_kept x hx), fun x hx => ?_,
    fun n => ?_⟩
  · rcases mem_append.1 hx with hx | hx
    · exact h.kept_of_seen x hx
    · obtain rfl := mem_singleton.1 hx
      exact ⟨b, mem_of_find?_eq_some ha, by simpa using find?_some ha, hc⟩
  · rw [find?_append, ← h.first n]
    by_cases hn : name a = n
    · subst hn
      rw [ha]
      rfl
    · have hnone : [a].find? (name · == n) = none := by simpa using hn
      rw [hnone, Option.or_none]

theorem compared_eq (h : Firsts name compared seen kept) (ha : a ∈ kept) (hb : b ∈ seen)
    (hn : name b = name a) : compared a = compared b := by
  obtain ⟨c, hc, hcn, hcc⟩ := h.kept_of_seen b hb
  have : c = a := inj_on_of_nodup_map h.nodup hc ha (hcn.trans hn)
  rw [← this, hcc]

theorem find?_eq_some (h : Firsts name compared seen kept) {n : String} :
    seen.find? (name · == n) = some a ↔ a ∈ kept ∧ name a = n := by
  rw [← h.first n, find?_eq_some_of_nodup h.nodup]

end Firsts

/-- What is declared is what some items declare, each name once. -/
structure Declared.Of (items : List Item) (d : Declared) : Prop where
  tables : Firsts TableDecl.name TableDecl.signature (items.filterMap Item.table?) d.tables
  sharedSets :
    Firsts SharedSet.name (·.set.signature) (items.filterMap Item.sharedSet?) d.sharedSets

namespace Declared
variable {items : List Item} {d d' : Declared} {i : Item}

/-- What one more item does to what is declared. -/
inductive Adds (d : Declared) : Item → Declared → Prop
  | newSharedSet (s : SharedSet) (unseen : d.sharedSets.find? (·.name == s.name) = none) :
      Adds d (.sharedSet s) { d with sharedSets := d.sharedSets ++ [s] }
  | sharedSetAgain (s first : SharedSet) (seen : d.sharedSets.find? (·.name == s.name) = some first)
      (same : first.set.signature = s.set.signature) : Adds d (.sharedSet s) d
  | newTable (t : TableDecl) (unseen : d.tables.find? (·.name == t.name) = none) :
      Adds d (.table t) { d with tables := d.tables ++ [t] }
  | tableAgain (t first : TableDecl) (seen : d.tables.find? (·.name == t.name) = some first)
      (same : first.signature = t.signature) : Adds d (.table t) d
  | other {i : Item} (table : i.table? = none) (sharedSet : i.sharedSet? = none) : Adds d i d

theorem adds_of_add (h : d.add i = .ok d') : d.Adds i d' := by
  cases i with
  | sharedSet s =>
    simp only [Declared.add] at h
    cases hf : d.sharedSets.find? (·.name == s.name) with
    | none =>
      simp only [hf, Except.ok.injEq] at h
      subst h
      exact .newSharedSet s hf
    | some first =>
      simp only [hf] at h
      split at h
      · next hc =>
        cases h
        exact .sharedSetAgain s first hf hc
      · cases h
  | table t =>
    simp only [Declared.add] at h
    cases hf : d.tables.find? (·.name == t.name) with
    | none =>
      simp only [hf, Except.ok.injEq] at h
      subst h
      exact .newTable t hf
    | some first =>
      simp only [hf] at h
      split at h
      · next hc =>
        cases h
        exact .tableAgain t first hf hc
      · cases h
  | _ =>
    cases h
    exact .other rfl rfl

theorem of_nil : Declared.Of [] ⟨[], []⟩ :=
  ⟨⟨.nil, by simp, by simp, fun _ => rfl⟩, ⟨.nil, by simp, by simp, fun _ => rfl⟩⟩

theorem Of.add (h : d.Of items) (ha : d.add i = .ok d') : d'.Of (items ++ [i]) := by
  obtain ⟨htables, hshared⟩ := h
  cases adds_of_add ha with
  | newSharedSet s hf =>
    exact ⟨by simpa [Item.table?, filterMap_cons] using htables,
      by simpa [Item.sharedSet?] using hshared.add_new hf⟩
  | sharedSetAgain s first hf hc =>
    exact ⟨by simpa [Item.table?, filterMap_cons] using htables,
      by simpa [Item.sharedSet?] using hshared.add_again hf hc⟩
  | newTable t hf =>
    exact ⟨by simpa [Item.table?] using htables.add_new hf,
      by simpa [Item.sharedSet?, filterMap_cons] using hshared⟩
  | tableAgain t first hf hc =>
    exact ⟨by simpa [Item.table?] using htables.add_again hf hc,
      by simpa [Item.sharedSet?, filterMap_cons] using hshared⟩
  | other ht hs =>
    exact ⟨by simpa [ht, filterMap_cons] using htables,
      by simpa [hs, filterMap_cons] using hshared⟩

theorem Of.foldlM {more : List Item} (h : d.Of items) (ha : more.foldlM Declared.add d = .ok d') :
    d'.Of (items ++ more) := by
  induction more generalizing items d with
  | nil =>
    cases ha
    rwa [append_nil]
  | cons i more ih =>
    rw [foldlM_cons, bind_eq_ok] at ha
    obtain ⟨d₁, h₁, ha⟩ := ha
    have := ih (h.add h₁) ha
    rwa [append_assoc] at this

end Declared

theorem Program.of_declared {p : Program} {d : Declared} (h : p.declared = .ok d) :
    d.Of p.allItems := Declared.of_nil.foldlM h

/-- The rules for the sets, samplers and names of a table. -/
structure ResourceTable.WellFormed (t : ResourceTable) : Prop where
  increasing : t.sets.Pairwise fun s s' => s.frequency.index < s'.frequency.index
  samplers : ∀ s ∈ t.sets.tail, ∀ r ∈ s.resources, r.kind.isSampler = false
  distinct : t.names.Nodup

theorem ResourceTable.names_eq (t : ResourceTable) :
    t.names = t.sets.flatMap fun s => s.resources.map TableResource.name := by
  simp [names, resources, map_flatMap, Function.comp_def]

namespace TableDecl
variable {sets : List TableSet}

theorem orderFault?_eq_none :
    orderFault? sets = none ↔
      sets.Pairwise fun s s' => s.frequency.index < s'.frequency.index := by
  fun_induction orderFault? sets with
  | case1 a b rest h =>
    simp only [reduceCtorEq, false_iff]
    intro hp
    have := (pairwise_cons.1 hp).1 b (.head _)
    omega
  | case2 a b rest h ih =>
    rw [ih]
    constructor
    · intro hp
      refine pairwise_cons.2 ⟨fun s hs => ?_, hp⟩
      rcases mem_cons.1 hs with rfl | hs
      · omega
      · have := (pairwise_cons.1 hp).1 s hs
        omega
    · exact fun hp => (pairwise_cons.1 hp).2
  | case3 sets h =>
    match sets, h with
    | [], _ => simp
    | [a], _ => simp
    | a :: b :: rest, h => exact absurd rfl (h a b rest)

theorem samplerFault?_eq_none :
    samplerFault? sets = none ↔ ∀ s ∈ sets.tail, ∀ r ∈ s.resources, r.kind.isSampler = false := by
  cases sets with
  | nil => simp [samplerFault?]
  | cons first rest => simp [samplerFault?]

theorem repeatedName?_eq_none {seen names : List String} :
    repeatedName? seen names = none ↔ names.Nodup ∧ ∀ n ∈ names, n ∉ seen := by
  induction names generalizing seen with
  | nil => simp [repeatedName?]
  | cons n names ih =>
    rw [repeatedName?]
    split
    · next h => simp [h]
    · next h =>
      rw [ih, nodup_cons, forall_mem_cons]
      grind

theorem faultOf?_eq_none {name : String} :
    faultOf? sets = none ↔ ResourceTable.WellFormed ⟨name, sets⟩ := by
  simp only [faultOf?, Option.orElse_eq_orElse, Option.orElse_eq_or, Option.or_eq_none_iff,
    orderFault?_eq_none, samplerFault?_eq_none, Option.map_eq_none_iff, repeatedName?_eq_none,
    ← ResourceTable.names_eq ⟨name, sets⟩]
  constructor
  · rintro ⟨ho, hs, hn, -⟩
    exact ⟨ho, hs, hn⟩
  · rintro ⟨ho, hs, hn⟩
    exact ⟨ho, hs, hn, by simp⟩

theorem resolve_eq_ok {sharedSets : List SharedSet} {d : TableDecl} {t : ResourceTable} :
    d.resolve sharedSets = .ok t ↔
      t.name = d.name ∧ d.sets.map (resolveSet sharedSets d.name) = t.sets.map .ok ∧
        t.WellFormed := by
  obtain ⟨name, sets⟩ := t
  simp only [resolve, bind_eq_ok, mapM_eq_ok, ofSets]
  constructor
  · rintro ⟨sets', hsets, h⟩
    cases hf : faultOf? sets' with
    | some fault => simp [hf] at h
    | none =>
      simp only [hf, Except.ok.injEq, ResourceTable.mk.injEq] at h
      obtain ⟨rfl, rfl⟩ := h
      exact ⟨rfl, hsets, faultOf?_eq_none.1 hf⟩
  · rintro ⟨rfl, hsets, hw⟩
    exact ⟨sets, hsets, by rw [faultOf?_eq_none.2 hw]⟩

end TableDecl

namespace ResourceTable
variable {r : TableResource} {s : TableSet} {n : String} {t : ResourceTable} {f : Frequency}

theorem mem_resources : (f, r) ∈ t.resources ↔ ∃ s ∈ t.sets, s.frequency = f ∧ r ∈ s.resources := by
  simp only [resources, mem_flatMap, mem_map, Prod.mk.injEq]
  grind

theorem WellFormed.set?_eq_some (h : t.WellFormed) :
    t.set? f = some s ↔ s ∈ t.sets ∧ s.frequency = f := by
  refine find?_eq_some_of_nodup ?_
  rw [List.Nodup, pairwise_map]
  refine h.increasing.imp fun {s s'} hlt he => ?_
  rw [he] at hlt
  exact Nat.lt_irrefl _ hlt

theorem WellFormed.resource?_eq_some (h : t.WellFormed) :
    t.resource? n = some (f, r) ↔ (f, r) ∈ t.resources ∧ r.name = n :=
  find?_eq_some_of_nodup h.distinct

/-- Looking up an index by frequency and name finds what looking up the name finds. -/
theorem WellFormed.index?_eq_some (h : t.WellFormed) {i : Nat} :
    t.index? f n = some i ↔ ∃ r, t.resource? n = some (f, r) ∧ r.index = i := by
  have hset : ∀ s ∈ t.sets, (s.resources.map TableResource.name).Nodup := by
    intro s hs
    have hdistinct := h.distinct
    rw [names_eq, nodup_flatMap] at hdistinct
    exact hdistinct.1 s hs
  simp only [index?, Option.map_eq_some_iff, Option.bind_eq_some_iff, h.set?_eq_some,
    h.resource?_eq_some, mem_resources]
  constructor
  · rintro ⟨r, ⟨s, ⟨hs, hf⟩, hr⟩, hi⟩
    obtain ⟨hr, hn⟩ := (find?_eq_some_of_nodup (hset s hs)).1 hr
    exact ⟨r, ⟨⟨s, hs, hf, hr⟩, hn⟩, hi⟩
  · rintro ⟨r, ⟨⟨s, hs, hf, hr⟩, hn⟩, hi⟩
    exact ⟨r, ⟨s, ⟨hs, hf⟩, (find?_eq_some_of_nodup (hset s hs)).2 ⟨hr, hn⟩⟩, hi⟩

end ResourceTable

/-- The block that stands for a set of a table: the table's own, or that of a shared set. -/
inductive SetSource.StandsFor (declared : SharedSet → Prop) : SetSource → SetBlock → Prop
  | own (block : SetBlock) : StandsFor declared (.own block) block
  | shared {s : SharedSet} (loc : Loc) (h : declared s) :
      StandsFor declared (.shared s.name loc) s.set

/-- What a declaration says of a resource, its frequency included. -/
def ResourceDecl.listing (d : ResourceDecl) : Frequency × String × ResourceKind × Nat :=
  (d.frequency, d.signature)

namespace TableSet

/-- What a set says of its resources, its frequency included. -/
def listing (s : TableSet) : List (Frequency × String × ResourceKind × Nat) :=
  s.resources.map fun r => (s.frequency, r.signature)

theorem listing_of_resolve {s : SetBlock} {scope : String} {shared : Option String} {t : TableSet}
    (h : s.resolve scope shared = .ok t) : t.listing = s.decls.map ResourceDecl.listing := by
  obtain ⟨hplace, hf, -⟩ := SetBlock.resolve_eq_ok.1 h
  have hfreq := ((SetBlock.place_isOk_iff (by decide)).1 ⟨_, hplace⟩).1
  have hsig := congrArg (List.map fun x => (s.frequency, x)) (SetBlock.place_eq_ok hplace).1
  rw [map_map, map_map] at hsig
  calc t.listing = t.resources.map (fun r => (s.frequency, r.signature)) := by rw [listing, hf]
    _ = s.decls.map (fun d => (s.frequency, d.signature)) := hsig
    _ = s.decls.map ResourceDecl.listing :=
      map_congr_left fun d hd => by rw [ResourceDecl.listing, hfreq d hd]

end TableSet

theorem SetBlock.listing_of_contents {s s' : SetBlock} (h : s.contents = s'.contents) :
    s.decls.map ResourceDecl.listing = s'.decls.map ResourceDecl.listing := by
  simp only [contents, SetContents.listed.injEq] at h
  have hdecls := congrArg (List.map fun x => (x.2.2.2, x.1, x.2.1, x.2.2.1)) h.2
  rw [map_map, map_map] at hdecls
  exact hdecls

namespace TableDecl
variable {sets : List TableSet} {s set : TableSet} {sources sources' : List SetSource}
  {declared : SharedSet → Prop} {sharedSets : List SharedSet}

/-- Shared sets that are declared, each with the contents of all that are declared by its name. -/
structure Kept (declared : SharedSet → Prop) (sharedSets : List SharedSet) : Prop where
  holds : ∀ s ∈ sharedSets, declared s
  same : ∀ s ∈ sharedSets, ∀ s', declared s' → s'.name = s.name → s.set.contents = s'.set.contents

variable {name : String}

theorem resolveSet_shared {included : String} {loc : Loc}
    (h : resolveSet sharedSets name (.shared included loc) = .ok set) :
    ∃ s ∈ sharedSets, sharedSets.find? (·.name == included) = some s ∧ s.name = included ∧
      s.set.resolve s.name (some s.name) = .ok set := by
  rw [resolveSet] at h
  split at h
  · cases h
  · next s hs =>
    exact ⟨s, mem_of_find?_eq_some hs, hs, by simpa using find?_some hs, h⟩

/-- A resolved set lists what its source declares, wherever the source is declared again. -/
theorem listing_of_resolveSet (hk : Kept declared sharedSets) {source source' : SetSource}
    {block : SetBlock} (h : resolveSet sharedSets name source = .ok set)
    (hc : source'.contents = source.contents) (hb : source'.StandsFor declared block) :
    set.listing = block.decls.map ResourceDecl.listing := by
  cases source with
  | own own =>
    cases hb with
    | own =>
      rw [SetBlock.listing_of_contents hc]
      exact TableSet.listing_of_resolve h
    | shared => cases hc
  | shared included loc =>
    cases hb with
    | own => cases hc
    | shared _ hdeclared =>
      simp only [SetSource.contents, SetContents.included.injEq] at hc
      subst hc
      obtain ⟨s, hs, -, hname, h⟩ := resolveSet_shared h
      rw [← SetBlock.listing_of_contents (hk.same s hs _ hdeclared hname.symm)]
      exact TableSet.listing_of_resolve h

theorem listing_of_resolveSets (hk : Kept declared sharedSets) {blocks : List SetBlock}
    (h : sources.map (resolveSet sharedSets name) = sets.map .ok)
    (hc : sources'.map SetSource.contents = sources.map SetSource.contents)
    (hb : List.Forall₂ (SetSource.StandsFor declared) sources' blocks) :
    sets.flatMap TableSet.listing =
      blocks.flatMap fun b => b.decls.map ResourceDecl.listing := by
  induction hb generalizing sources sets with
  | nil =>
    obtain rfl : sources = [] := by simpa using hc.symm
    obtain rfl : sets = [] := by simpa using h.symm
    rfl
  | @cons source' block sources' blocks hfirst _ ih =>
    cases sources with
    | nil => simp at hc
    | cons source sources =>
      cases sets with
      | nil => simp at h
      | cons set sets =>
        rw [map_cons, map_cons, List.cons.injEq] at h hc
        rw [flatMap_cons, flatMap_cons, ih h.2 hc.2,
          listing_of_resolveSet hk h.1 hc.1 hfirst]

theorem exists_blocks (hk : Kept declared sharedSets)
    (h : sources.map (resolveSet sharedSets name) = sets.map .ok)
    (hc : sources'.map SetSource.contents = sources.map SetSource.contents) :
    ∃ blocks, List.Forall₂ (SetSource.StandsFor declared) sources' blocks := by
  induction sources' generalizing sources sets with
  | nil => exact ⟨[], .nil⟩
  | cons source' sources' ih =>
    cases sources with
    | nil => simp at hc
    | cons source sources =>
      cases sets with
      | nil => simp at h
      | cons set sets =>
        rw [map_cons, map_cons, List.cons.injEq] at h hc
        obtain ⟨blocks, hblocks⟩ := ih h.2 hc.2
        cases source' with
        | own block => exact ⟨block :: blocks, .cons (.own block) hblocks⟩
        | shared included loc =>
          cases source with
          | own => cases hc.1
          | shared included' =>
            obtain rfl : included = included' := by simpa [SetSource.contents] using hc.1
            obtain ⟨s, hs, -, rfl, -⟩ := resolveSet_shared h.1
            exact ⟨s.set :: blocks, .cons (.shared loc (hk.holds s hs)) hblocks⟩

theorem exists_source {d : TableDecl} {t : ResourceTable} (h : d.resolve sharedSets = .ok t)
    (hs : s ∈ t.sets) : ∃ source ∈ d.sets, resolveSet sharedSets d.name source = .ok s := by
  refine mem_map.1 ?_
  rw [(resolve_eq_ok.1 h).2.1]
  exact mem_map_of_mem hs

end TableDecl

namespace ResourceTables
variable {n : String} {d : Declared}

theorem get?_ofDeclared (hd : (d.tables.map TableDecl.name).Nodup) {decl : TableDecl}
    (h : decl ∈ d.tables) :
    (ofDeclared d).get? decl.name = (decl.resolve d.sharedSets).toOption := by
  rw [get?, ofDeclared, lookup_of_nodup hd h]
  cases decl.resolve d.sharedSets <;> rfl

variable {t : ResourceTable}

theorem mem_tables (hd : (d.tables.map TableDecl.name).Nodup) :
    t ∈ (ofDeclared d).tables ↔ ∃ decl ∈ d.tables, decl.resolve d.sharedSets = .ok t := by
  have hnames : (ofDeclared d).entries.map (·.1) = d.tables.map TableDecl.name := by
    simp [ofDeclared, Function.comp_def]
  have hok : ∀ x : Except Failure ResourceTable, x.toOption = some t ↔ x = .ok t := by
    rintro (_ | _) <;> simp [Except.toOption]
  rw [tables, hnames, mem_filterMap]
  simp only [Text.sortNames, mem_mergeSort, mem_map]
  constructor
  · rintro ⟨_, ⟨decl, hdecl, rfl⟩, ht⟩
    rw [get?_ofDeclared hd hdecl, hok] at ht
    exact ⟨decl, hdecl, ht⟩
  · rintro ⟨decl, hdecl, ht⟩
    exact ⟨decl.name, ⟨decl, hdecl, rfl⟩, by rwa [get?_ofDeclared hd hdecl, hok]⟩

theorem mem_failed :
    n ∈ (ofDeclared d).failed ↔
      ∃ decl ∈ d.tables, decl.name = n ∧ ∃ e, decl.resolve d.sharedSets = .error e := by
  simp only [failed, Text.sortNames, mem_mergeSort, ofDeclared, mem_filterMap, mem_map,
    Prod.exists]
  constructor
  · rintro ⟨_, _, ⟨decl, hdecl, h⟩, hn⟩
    cases h
    cases hr : decl.resolve d.sharedSets with
    | ok t => simp [hr] at hn
    | error e => exact ⟨decl, hdecl, by simpa [hr] using hn, e, hr⟩
  · rintro ⟨decl, hdecl, rfl, e, he⟩
    exact ⟨_, _, ⟨decl, hdecl, rfl⟩, by rw [he]⟩

theorem name_of_get? (h : (ofDeclared d).get? n = some t) : t.name = n := by
  rw [get?] at h
  split at h
  · next t' hl =>
    obtain rfl := Option.some.inj h
    obtain ⟨before, after, he, -⟩ := lookup_eq_some_iff.1 hl
    have hmem : (n, .ok t') ∈ (ofDeclared d).entries := by rw [he]; simp
    obtain ⟨decl, -, hdecl⟩ := mem_map.1 hmem
    obtain ⟨rfl, hr⟩ := Prod.mk.inj hdecl
    exact (TableDecl.resolve_eq_ok.1 hr).1
  · cases h

theorem nodup_tables (hd : (d.tables.map TableDecl.name).Nodup) :
    ((ofDeclared d).tables.map ResourceTable.name).Nodup := by
  have hnames : (ofDeclared d).entries.map (·.1) = d.tables.map TableDecl.name := by
    simp [ofDeclared, Function.comp_def]
  rw [tables, hnames, map_filterMap]
  refine List.Nodup.filterMap (fun n n' m hm hm' => ?_) ((mergeSort_perm _ _).nodup_iff.2 hd)
  obtain ⟨t, ht, rfl⟩ := Option.map_eq_some_iff.1 hm
  obtain ⟨t', ht', he⟩ := Option.map_eq_some_iff.1 hm'
  rw [← name_of_get? ht, ← he, name_of_get? ht']

end ResourceTables

/-- What a table says of its resources, in order. -/
def ResourceTable.listing (t : ResourceTable) : List (Frequency × String × ResourceKind × Nat) :=
  t.resources.map fun x => (x.1, x.2.signature)

theorem ResourceTable.listing_eq (t : ResourceTable) :
    t.listing = t.sets.flatMap TableSet.listing := by
  simp only [listing, resources, map_flatMap, map_map]
  rfl

/-- The table lists what the sets of a declaration declare, whichever of the shared sets stand for
those that it includes, and some do. -/
def ResourceTable.Lists (t : ResourceTable) (declared : SharedSet → Prop) (d : TableDecl) : Prop :=
  (∃ blocks, List.Forall₂ (SetSource.StandsFor declared) d.sets blocks) ∧
    ∀ blocks, List.Forall₂ (SetSource.StandsFor declared) d.sets blocks →
      t.listing = (blocks.flatMap SetBlock.decls).map ResourceDecl.listing

theorem TableDecl.lists_of_resolve {declared : SharedSet → Prop} {sharedSets : List SharedSet}
    {d d' : TableDecl} {t : ResourceTable} (hk : Kept declared sharedSets)
    (h : d.resolve sharedSets = .ok t) (hc : d'.contents = d.contents) : t.Lists declared d' := by
  obtain ⟨-, hsets, -⟩ := resolve_eq_ok.1 h
  refine ⟨exists_blocks hk hsets hc, fun blocks hb => ?_⟩
  rw [t.listing_eq, listing_of_resolveSets hk hsets hc hb, map_flatMap]

namespace Declared.Of
variable {p : Program} {d : Declared}

theorem kept_first (hd : d.Of p.allItems) :
    TableDecl.Kept (fun s => p.sharedDecls.find? (·.name == s.name) = some s) d.sharedSets := by
  refine ⟨fun s hs => hd.sharedSets.find?_eq_some.2 ⟨hs, rfl⟩, fun s hs s' hs' hn => ?_⟩
  rw [inj_on_of_nodup_map hd.sharedSets.nodup hs (hd.sharedSets.find?_eq_some.1 hs').1 hn.symm]

theorem kept_of_worded (hd : d.Of p.allItems) (hp : p.Worded) :
    TableDecl.Kept (.sharedSet · ∈ p.allItems) d.sharedSets := by
  refine ⟨fun s hs => Program.mem_sharedSet?.1 (hd.sharedSets.seen_of_kept s hs),
    fun s hs s' hs' hn => ?_⟩
  have hseen := hd.sharedSets.seen_of_kept s hs
  have hseen' := Program.mem_sharedSet?.2 hs'
  exact hp.set_contents (Program.mem_sharedDecls_iff.1 hseen)
    (Program.mem_sharedDecls_iff.1 hseen') (hd.sharedSets.compared_eq hs hseen' hn)

end Declared.Of

namespace Program
variable {p : Program} {ts : ResourceTables}

theorem resolveTables_eq_ok (h : p.resolveTables = .ok ts) :
    ∃ d : Declared, d.Of p.allItems ∧ ts = .ofDeclared d := by
  rw [resolveTables, map_eq_ok] at h
  obtain ⟨d, hd, rfl⟩ := h
  exact ⟨d, of_declared hd, ResourceTables.resolveAll_eq d⟩

/-- Every table of a program is resolved or has failed, and not both. A resolved table has its sets
in the order of their frequencies, samplers in the first set only and no name twice, so that both
ways of looking up an index agree. Its resources are those that its first declaration declares, in
their order, with the first declarations of the shared sets; where names are words, they are those
of any declarations of the table and the shared sets. -/
theorem resolveTables_wellFormed (h : p.resolveTables = .ok ts) :
    (∀ n, (∃ d, .table d ∈ p.allItems ∧ d.name = n) ↔
      n ∈ ts.tables.map ResourceTable.name ∨ n ∈ ts.failed) ∧
    (∀ n ∈ ts.failed, n ∉ ts.tables.map ResourceTable.name) ∧
    (ts.tables.map ResourceTable.name).Nodup ∧
    ∀ t ∈ ts.tables, t.WellFormed ∧
      (∀ f n i, t.index? f n = some i ↔ ∃ r, t.resource? n = some (f, r) ∧ r.index = i) ∧
      (∀ d, p.tableDecls.find? (·.name == t.name) = some d →
        t.Lists (fun s => p.sharedDecls.find? (·.name == s.name) = some s) d) ∧
      (p.Worded → ∀ d, .table d ∈ p.allItems → d.name = t.name →
        t.Lists (.sharedSet · ∈ p.allItems) d) := by
  obtain ⟨d, hd, rfl⟩ := resolveTables_eq_ok h
  have hnodup := hd.tables.nodup
  refine ⟨fun n => ⟨?_, ?_⟩, fun n hn hn' => ?_, ResourceTables.nodup_tables hnodup,
    fun t ht => ?_⟩
  · rintro ⟨decl, hdecl, rfl⟩
    obtain ⟨first, hfirst, hname, -⟩ := hd.tables.kept_of_seen decl (mem_table?.2 hdecl)
    cases hr : first.resolve d.sharedSets with
    | ok t =>
      refine .inl (mem_map.2 ⟨t, (ResourceTables.mem_tables hnodup).2 ⟨first, hfirst, hr⟩, ?_⟩)
      rw [(TableDecl.resolve_eq_ok.1 hr).1, hname]
    | error e => exact .inr (ResourceTables.mem_failed.2 ⟨first, hfirst, hname, e, hr⟩)
  · rintro (hn | hn)
    · obtain ⟨t, ht, rfl⟩ := mem_map.1 hn
      obtain ⟨first, hfirst, hr⟩ := (ResourceTables.mem_tables hnodup).1 ht
      exact ⟨first, mem_table?.1 (hd.tables.seen_of_kept _ hfirst),
        (TableDecl.resolve_eq_ok.1 hr).1.symm⟩
    · obtain ⟨first, hfirst, hname, -⟩ := ResourceTables.mem_failed.1 hn
      exact ⟨first, mem_table?.1 (hd.tables.seen_of_kept _ hfirst), hname⟩
  · obtain ⟨first, hfirst, rfl, e, he⟩ := ResourceTables.mem_failed.1 hn
    obtain ⟨t, ht, hname⟩ := mem_map.1 hn'
    obtain ⟨first', hfirst', hr⟩ := (ResourceTables.mem_tables hnodup).1 ht
    rw [(TableDecl.resolve_eq_ok.1 hr).1] at hname
    rw [inj_on_of_nodup_map hnodup hfirst' hfirst hname, he] at hr
    cases hr
  · obtain ⟨first, hfirst, hr⟩ := (ResourceTables.mem_tables hnodup).1 ht
    obtain ⟨hname, hsets, hw⟩ := TableDecl.resolve_eq_ok.1 hr
    refine ⟨hw, fun f n i => hw.index?_eq_some, fun decl hdecl => ?_, fun hp decl hdecl hn => ?_⟩
    · obtain ⟨hkept, hn⟩ := hd.tables.find?_eq_some.1 hdecl
      obtain rfl := inj_on_of_nodup_map hnodup hkept hfirst (hn.trans hname)
      exact TableDecl.lists_of_resolve hd.kept_first hr rfl
    · have he := hd.tables.compared_eq hfirst (mem_table?.2 hdecl) (hn.trans hname)
      have hseen := hd.tables.seen_of_kept first hfirst
      refine TableDecl.lists_of_resolve (hd.kept_of_worded hp) hr ?_
      exact (hp.table_contents (mem_tableDecls_iff.1 hseen)
        (mem_tableDecls_iff.1 (mem_table?.2 hdecl)) he).symm

/-- A program with a shared set, a table that includes it and one that includes a set nobody
declares. -/
def litProgram : Program :=
  let loc : Loc := ⟨"lit.fsl", 1⟩
  let frame : SetBlock := ⟨.perFrame, [⟨"camera", .constantBuffer .void, 1, .perFrame, loc⟩], loc⟩
  let maps : SetBlock := ⟨.persistent, [⟨"maps", .texture .tex2D .void, 4, .persistent, loc⟩,
    ⟨"smooth", .sampler false, 1, .persistent, loc⟩], loc⟩
  ⟨[.sharedSet ⟨"Frame", frame⟩, .table ⟨"Lit", [.own maps, .shared "Frame" loc], loc⟩,
    .table ⟨"Lost", [.shared "Gone" loc], loc⟩]⟩

def litTable : ResourceTable :=
  ⟨"Lit", [⟨.persistent, none,
      [⟨"maps", .texture .tex2D .void, 0, 4⟩, ⟨"smooth", .sampler false, 4, 1⟩], 5⟩,
    ⟨.perFrame, some "Frame", [⟨"camera", .constantBuffer .void, 0, 1⟩], 1⟩]⟩

def litTables : ResourceTables :=
  ⟨[("Lit", .ok litTable),
    ("Lost", .error (.program "Lost" (.unknownSharedSet "Gone" ⟨"lit.fsl", 1⟩)))]⟩

theorem resolveTables_litProgram : litProgram.resolveTables = .ok litTables := by rfl

theorem tables_litTables : litTables.tables = [litTable] := by
  have hsorted : Text.sortNames ["Lit", "Lost"] = ["Lit", "Lost"] :=
    mergeSort_of_pairwise (by decide)
  exact congrArg (List.filterMap litTables.get?) hsorted

theorem resolveTables_wellFormed_litProgram :
    litProgram.resolveTables = .ok litTables ∧ litTables.tables = [litTable] ∧
      litTables.failed = ["Lost"] ∧ litTable.WellFormed ∧
      ∀ n i, litTable.index? .persistent n = some i ↔
        ∃ r, litTable.resource? n = some (.persistent, r) ∧ r.index = i := by
  obtain ⟨-, -, -, hall⟩ := resolveTables_wellFormed resolveTables_litProgram
  obtain ⟨hw, hindex, -⟩ := hall litTable (by rw [tables_litTables]; exact .head _)
  exact ⟨resolveTables_litProgram, tables_litTables, mergeSort_singleton _, hw, hindex .persistent⟩

end Program
end ShaderDialect
