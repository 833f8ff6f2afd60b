import ShaderDialect.Proofs.ResourceTable.Tables

/-! The constants of C headers. Their names are made of the names of tables, sets and resources with
underscores between them, and names may have underscores of their own. The frequencies have none, so
that counts are always told apart, and so are all constants of one table. But an index of a table
can have the name of an index of another one whose name goes on with a frequency. -/
namespace ShaderDialect
open List

theorem Frequency.underscore_notMem_name (f : Frequency) : '_' ∉ f.name.toList := by
  cases f <;> decide

namespace ResourceTable
variable {t t' : ResourceTable} {f f' : Frequency} {n n' : String}

def countName (t : ResourceTable) (f : Frequency) : String := s!"SRT_SET_COUNT_{t.name}_{f.name}"

def indexName (t : ResourceTable) (f : Frequency) (n : String) : String :=
  s!"SRT_RES_IDX_{t.name}_{f.name}_{n}"

theorem toList_countName (t : ResourceTable) (f : Frequency) :
    (t.countName f).toList =
      "SRT_SET_COUNT_".toList ++ (t.name.toList ++ '_' :: f.name.toList) := by
  simp [countName, toString]

theorem toList_indexName (t : ResourceTable) (f : Frequency) (n : String) :
    (t.indexName f n).toList =
      "SRT_RES_IDX_".toList ++ (t.name.toList ++ '_' :: (f.name.toList ++ '_' :: n.toList)) := by
  simp [indexName, toString]

theorem countName_ne_indexName : t.countName f ≠ t'.indexName f' n := by
  intro h
  have hlist := congrArg String.toList h
  simp [toList_countName, toList_indexName] at hlist

/-- A frequency behind an underscore, cut before another underscore, is cut behind its end. -/
theorem cut_of_underscore {f : Frequency} {rest a more : List Char}
    (h : '_' :: (f.name.toList ++ rest) = a ++ '_' :: more) :
    a = [] ∨ ∃ gap, a = '_' :: (f.name.toList ++ gap) ∧ rest = gap ++ '_' :: more := by
  cases a with
  | nil => exact .inl rfl
  | cons c a =>
    rw [cons_append, List.cons.injEq] at h
    obtain ⟨rfl, h⟩ := h
    obtain ⟨gap, rfl, hrest⟩ | ⟨tail, hname, htail⟩ := append_eq_append_iff.1 h
    · exact .inr ⟨gap, rfl, hrest⟩
    · cases tail with
      | nil => exact .inr ⟨[], by simpa using hname.symm, htail.symm⟩
      | cons d tail =>
        rw [cons_append, List.cons.injEq] at htail
        obtain ⟨rfl, -⟩ := htail
        have hmem : '_' ∈ f.name.toList := by simp [hname]
        exact absurd hmem f.underscore_notMem_name

theorem eq_nil_of_count {a : List Char} (h : '_' :: f.name.toList = a ++ '_' :: f'.name.toList) :
    a = [] := by
  rcases @cut_of_underscore f [] a _ (by simpa using h) with ha | ⟨gap, -, hgap⟩
  · exact ha
  · simp at hgap

theorem countName_inj (h : t.countName f = t'.countName f') : t.name = t'.name ∧ f = f' := by
  have hlist := congrArg String.toList h
  rw [toList_countName, toList_countName, append_cancel_left_eq] at hlist
  have hname : t.name.toList = t'.name.toList := by
    obtain ⟨a, ha, hrest⟩ | ⟨a, ha, hrest⟩ := append_eq_append_iff.1 hlist
    · rw [ha, eq_nil_of_count hrest, append_nil]
    · rw [ha, eq_nil_of_count hrest, append_nil]
  rw [hname, append_cancel_left_eq, List.cons.injEq] at hlist
  exact ⟨String.toList_inj.1 hname, Frequency.name_inj (String.toList_inj.1 hlist.2)⟩

/-- The name of a table goes on with a frequency of another one. Then what is behind the frequency
is the start of a resource's name in the one table and of the table's in the other. -/
def RunsInto (t : ResourceTable) (f : Frequency) (n : String) (t' : ResourceTable) (f' : Frequency)
    (n' : String) : Prop :=
  ∃ gap : String, t'.name = t.name ++ "_" ++ f.name ++ gap ∧
    "_" ++ n = gap ++ "_" ++ f'.name ++ "_" ++ n'

theorem runsInto_of_append {a : List Char} (ha : t'.name.toList = t.name.toList ++ a)
    (h : '_' :: (f.name.toList ++ '_' :: n.toList) =
      a ++ '_' :: (f'.name.toList ++ '_' :: n'.toList)) :
    t.name = t'.name ∧ f = f' ∧ n = n' ∨ RunsInto t f n t' f' n' := by
  rcases cut_of_underscore h with rfl | ⟨gap, rfl, hgap⟩
  · obtain ⟨hf, hn⟩ := Text.cut_inj f.underscore_notMem_name f'.underscore_notMem_name
      (List.cons.inj h).2
    refine .inl ⟨?_, Frequency.name_inj (String.toList_inj.1 hf), String.toList_inj.1 hn⟩
    exact String.toList_inj.1 (by simp [ha])
  · refine .inr ⟨String.ofList gap, String.toList_inj.1 ?_, String.toList_inj.1 ?_⟩
    · simp [ha]
    · simp [hgap]

theorem indexName_eq_iff : t.indexName f n = t'.indexName f' n' ↔
    t.name = t'.name ∧ f = f' ∧ n = n' ∨ RunsInto t f n t' f' n' ∨ RunsInto t' f' n' t f n := by
  constructor
  · intro h
    have hlist := congrArg String.toList h
    rw [toList_indexName, toList_indexName, append_cancel_left_eq] at hlist
    obtain ⟨a, ha, hrest⟩ | ⟨a, ha, hrest⟩ := append_eq_append_iff.1 hlist
    · exact (runsInto_of_append ha hrest).imp_right .inl
    · rcases runsInto_of_append ha hrest with ⟨ht, hf, hn⟩ | hruns
      · exact .inl ⟨ht.symm, hf.symm, hn.symm⟩
      · exact .inr (.inr hruns)
  · have hruns {t t' : ResourceTable} {f f' : Frequency} {n n' : String}
        (h : RunsInto t f n t' f' n') : t.indexName f n = t'.indexName f' n' := by
      obtain ⟨gap, hname, hn⟩ := h
      have hn' := congrArg String.toList hn
      apply String.toList_inj.1
      rw [toList_indexName, toList_indexName, hname]
      simpa using hn'
    rintro (⟨ht, rfl, rfl⟩ | h | h)
    · rw [indexName, indexName, ht]
    · exact hruns h
    · exact (hruns h).symm

theorem mem_constants {name : String} {v : Nat} : (name, v) ∈ t.constants ↔
    (∃ s ∈ t.sets, name = t.countName s.frequency ∧ v = s.count) ∨
      ∃ x ∈ t.resources, name = t.indexName x.1 x.2.name ∧ v = x.2.index := by
  simp only [constants, setConstants, resources, mem_flatMap, mem_cons, mem_map,
    Prod.mk.injEq]
  constructor
  · rintro ⟨s, hs, ⟨hname, hv⟩ | ⟨r, hr, hname, hv⟩⟩
    · exact .inl ⟨s, hs, hname, hv⟩
    · exact .inr ⟨(s.frequency, r), ⟨s, hs, r, hr, rfl⟩, hname.symm, hv.symm⟩
  · rintro (⟨s, hs, hname, hv⟩ | ⟨x, ⟨s, hs, r, hr, rfl⟩, hname, hv⟩)
    · exact ⟨s, hs, .inl ⟨hname, hv⟩⟩
    · exact ⟨s, hs, .inr ⟨r, hr, hname.symm, hv.symm⟩⟩

theorem RunsInto.name_ne (h : RunsInto t f n t' f' n') : t.name ≠ t'.name := by
  obtain ⟨gap, hname, -⟩ := h
  intro he
  have hlength := congrArg (·.toList.length) (he.trans hname)
  simp [he] at hlength

theorem indexName_inj (ht : t.name = t'.name) (h : t.indexName f n = t'.indexName f' n') :
    f = f' ∧ n = n' := by
  rcases indexName_eq_iff.1 h with ⟨-, hf, hn⟩ | hruns | hruns
  · exact ⟨hf, hn⟩
  · exact absurd ht hruns.name_ne
  · exact absurd ht.symm hruns.name_ne

/-- The constants of one table are told apart by their names. -/
theorem WellFormed.nodup_constants (h : t.WellFormed) : (t.constants.map Prod.fst).Nodup := by
  have hnames : t.constants.map Prod.fst = t.sets.flatMap fun s =>
      t.countName s.frequency :: (s.resources.map TableResource.name).map
        (t.indexName s.frequency) := by
    simp [constants, setConstants, map_flatMap, countName, indexName, Function.comp_def]
  have hdistinct := h.distinct
  rw [names_eq, nodup_flatMap] at hdistinct
  rw [hnames, nodup_flatMap]
  refine ⟨fun s hs => nodup_cons.2 ⟨fun hmem => ?_, ?_⟩, h.increasing.imp fun {s s'} hlt => ?_⟩
  · obtain ⟨n, -, hn⟩ := mem_map.1 hmem
    exact countName_ne_indexName hn.symm
  · exact (hdistinct.1 s hs).map fun n n' hn => (indexName_inj rfl hn).2
  · have hfrequency : s.frequency ≠ s'.frequency := by
      intro he
      rw [he] at hlt
      exact Nat.lt_irrefl _ hlt
    intro name hname hname'
    rcases mem_cons.1 hname with rfl | hname
    · rcases mem_cons.1 hname' with he | hname'
      · exact hfrequency (countName_inj he).2
      · obtain ⟨n, -, hn⟩ := mem_map.1 hname'
        exact countName_ne_indexName hn.symm
    · obtain ⟨n, -, rfl⟩ := mem_map.1 hname
      rcases mem_cons.1 hname' with he | hname'
      · exact countName_ne_indexName he.symm
      · obtain ⟨n', -, hn⟩ := mem_map.1 hname'
        exact hfrequency (indexName_inj rfl hn).1.symm

/-- An index of one table has the name of an index of another one. -/
def Clash (t t' : ResourceTable) : Prop :=
  ∃ x ∈ t.resources, ∃ y ∈ t'.resources, RunsInto t x.1 x.2.name t' y.1 y.2.name

theorem Clash.exists_name (h : t.Clash t') :
    ∃ name, name ∈ t.constants.map Prod.fst ∧ name ∈ t'.constants.map Prod.fst := by
  obtain ⟨x, hx, y, hy, hruns⟩ := h
  refine ⟨t.indexName x.1 x.2.name, mem_map.2 ⟨(_, x.2.index), ?_, rfl⟩,
    mem_map.2 ⟨(_, y.2.index), ?_, rfl⟩⟩
  · exact mem_constants.2 (.inr ⟨x, hx, rfl, rfl⟩)
  · exact mem_constants.2 (.inr ⟨y, hy, indexName_eq_iff.2 (.inr (.inl hruns)), rfl⟩)

/-- Constants of different tables have different names, apart from indices that clash. -/
theorem clash_of_mem_constants {name : String} {v v' : Nat} (hne : t.name ≠ t'.name)
    (h : (name, v) ∈ t.constants) (h' : (name, v') ∈ t'.constants) : t.Clash t' ∨ t'.Clash t := by
  rcases mem_constants.1 h with ⟨s, hs, rfl, -⟩ | ⟨x, hx, rfl, -⟩
  · rcases mem_constants.1 h' with ⟨s', hs', he, -⟩ | ⟨y, hy, he, -⟩
    · exact absurd (countName_inj he).1 hne
    · exact absurd he countName_ne_indexName
  · rcases mem_constants.1 h' with ⟨s', hs', he, -⟩ | ⟨y, hy, he, -⟩
    · exact absurd he.symm countName_ne_indexName
    · rcases indexName_eq_iff.1 he with ⟨ht, -⟩ | hruns | hruns
      · exact absurd ht hne
      · exact .inl ⟨x, hx, y, hy, hruns⟩
      · exact .inr ⟨y, hy, x, hx, hruns⟩

/-- Behind its guard, a header has a line for each of the constants. -/
theorem filter_headerLines (t : ResourceTable) :
    (t.headerLines.drop 7).filter (· ≠ "") = t.constants.map fun c => s!"#define {c.1} {c.2}" := by
  have hline (name : String) (v : Nat) : s!"#define {name} {v}" ≠ "" := by
    intro h
    have hlist := congrArg String.toList h
    simp [toString] at hlist
  have hset (s : TableSet) :
      ("" :: (t.setConstants s).map fun c => s!"#define {c.1} {c.2}").filter (· ≠ "") =
        (t.setConstants s).map fun c => s!"#define {c.1} {c.2}" := by
    rw [filter_cons_of_neg (by simp), filter_eq_self]
    intro line hmem
    obtain ⟨c, -, rfl⟩ := mem_map.1 hmem
    exact decide_eq_true (hline c.1 c.2)
  calc (t.headerLines.drop 7).filter (· ≠ "")
      = (t.sets.flatMap fun s =>
          "" :: (t.setConstants s).map fun c => s!"#define {c.1} {c.2}").filter (· ≠ "") := rfl
    _ = t.sets.flatMap fun s => (t.setConstants s).map fun c => s!"#define {c.1} {c.2}" := by
      rw [filter_flatMap]
      exact flatMap_congr fun s _ => hset s
    _ = t.constants.map fun c => s!"#define {c.1} {c.2}" := by rw [constants, map_flatMap]

theorem WellFormed.mem_constants_of_index? (h : t.WellFormed) {i : Nat}
    (hi : t.index? f n = some i) : (t.indexName f n, i) ∈ t.constants := by
  obtain ⟨r, hr, rfl⟩ := h.index?_eq_some.1 hi
  obtain ⟨hmem, rfl⟩ := h.resource?_eq_some.1 hr
  exact mem_constants.2 (.inr ⟨(f, r), hmem, rfl, rfl⟩)

theorem WellFormed.eq_of_mem_constants (h : t.WellFormed) {i v : Nat} (hi : t.index? f n = some i)
    (hv : (t.indexName f n, v) ∈ t.constants) : v = i := by
  rcases mem_constants.1 hv with ⟨s, -, he, -⟩ | ⟨x, hx, he, rfl⟩
  · exact absurd he.symm countName_ne_indexName
  · obtain ⟨rfl, rfl⟩ := indexName_inj rfl he
    have hindex := h.index?_eq_some.2 ⟨x.2, h.resource?_eq_some.2 ⟨hx, rfl⟩, rfl⟩
    exact Option.some.inj (hindex.symm.trans hi)

end ResourceTable

namespace Program
variable {p : Program} {ts : ResourceTables}

/-- The constants of all tables of a program have names of their own exactly if no two tables clash.
A count is never taken for anything else, and an index only where its table clashes with another
one. -/
theorem constants_unambiguous_iff (hp : p.resolveTables = .ok ts) :
    (∀ t ∈ ts.tables, (t.constants.map Prod.fst).Nodup ∧
      (t.headerLines.drop 7).filter (· ≠ "") = t.constants.map fun c => s!"#define {c.1} {c.2}") ∧
    (((ts.tables.flatMap ResourceTable.constants).map Prod.fst).Nodup ↔
      ∀ t ∈ ts.tables, ∀ t' ∈ ts.tables, ¬ t.Clash t') ∧
    (∀ t ∈ ts.tables, ∀ f s, t.set? f = some s → ∀ v,
      (t.countName f, v) ∈ ts.tables.flatMap ResourceTable.constants ↔ v = s.count) ∧
    ∀ t ∈ ts.tables, (∀ t' ∈ ts.tables, ¬ t.Clash t' ∧ ¬ t'.Clash t) → ∀ f n i,
      t.index? f n = some i →
      ∀ v, (t.indexName f n, v) ∈ ts.tables.flatMap ResourceTable.constants ↔ v = i := by
  obtain ⟨d, hd, rfl⟩ := resolveTables_eq_ok hp
  have hnodup := ResourceTables.nodup_tables hd.tables.nodup
  have hw : ∀ t ∈ (ResourceTables.ofDeclared d).tables, t.WellFormed := by
    intro t ht
    obtain ⟨decl, -, hr⟩ := (ResourceTables.mem_tables hd.tables.nodup).1 ht
    exact (TableDecl.resolve_eq_ok.1 hr).2.2
  refine ⟨fun t ht => ⟨(hw t ht).nodup_constants, t.filter_headerLines⟩, ?_,
    fun t ht f s hs v => ?_, fun t ht hclash f n i hi v => ?_⟩
  · rw [map_flatMap, nodup_flatMap]
    constructor
    · rintro ⟨-, hdisjoint⟩ t ht t' ht' hclash
      obtain ⟨name, hname, hname'⟩ := hclash.exists_name
      obtain ⟨x, -, y, -, hruns⟩ := hclash
      have hne : t ≠ t' := fun he => hruns.name_ne (congrArg ResourceTable.name he)
      have hsymm : Std.Symm (Function.onFun List.Disjoint
          fun t : ResourceTable => t.constants.map Prod.fst) := ⟨fun _ _ h => List.Disjoint.symm h⟩
      exact hdisjoint.forall ht ht' hne hname hname'
    · intro hclash
      refine ⟨fun t ht => (hw t ht).nodup_constants, ?_⟩
      refine hnodup.of_map.pairwise_of_forall_ne fun t ht t' ht' hne name hname hname' => ?_
      obtain ⟨⟨_, v⟩, hv, rfl⟩ := mem_map.1 hname
      obtain ⟨⟨_, v'⟩, hv', he⟩ := mem_map.1 hname'
      obtain rfl := he
      have hnames : t.name ≠ t'.name := fun he => hne (inj_on_of_nodup_map hnodup ht ht' he)
      rcases ResourceTable.clash_of_mem_constants hnames hv hv' with h | h
      · exact hclash t ht t' ht' h
      · exact hclash t' ht' t ht h
  · obtain ⟨hmem, rfl⟩ := (hw t ht).set?_eq_some.1 hs
    rw [mem_flatMap]
    constructor
    · rintro ⟨t', ht', hv⟩
      rcases ResourceTable.mem_constants.1 hv with ⟨s', hs', he, rfl⟩ | ⟨x, -, he, -⟩
      · obtain ⟨hname, hf⟩ := ResourceTable.countName_inj he
        obtain rfl := inj_on_of_nodup_map hnodup ht ht' hname
        have hs' := (hw t ht).set?_eq_some.2 ⟨hs', hf.symm⟩
        rw [Option.some.inj (hs.symm.trans hs')]
      · exact absurd he ResourceTable.countName_ne_indexName
    · rintro rfl
      exact ⟨t, ht, ResourceTable.mem_constants.2 (.inl ⟨s, hmem, rfl, rfl⟩)⟩
  · rw [mem_flatMap]
    have hmem := (hw t ht).mem_constants_of_index? hi
    constructor
    · rintro ⟨t', ht', hv⟩
      by_cases hname : t.name = t'.name
      · obtain rfl := inj_on_of_nodup_map hnodup ht ht' hname
        exact (hw t ht).eq_of_mem_constants hi hv
      · rcases ResourceTable.clash_of_mem_constants hname hmem hv with h | h
        · exact absurd h (hclash t' ht').1
        · exact absurd h (hclash t' ht').2
    · rintro rfl
      exact ⟨t, ht, hmem⟩

/-- Two tables that make one name of different indices. -/
def clashingProgram : Program :=
  let loc : Loc := ⟨"lit.fsl", 1⟩
  let maps (f : Frequency) (names : List String) : SetSource :=
    .own ⟨f, names.map fun name => ⟨name, .texture .tex2D .void, 1, f, loc⟩, loc⟩
  ⟨[.table ⟨"Lit", [maps .persistent ["noise", "PerFrame_map"]], loc⟩,
    .table ⟨"Lit_Persistent", [maps .perFrame ["map"]], loc⟩]⟩

def clashingTables : List ResourceTable :=
  [⟨"Lit", [⟨.persistent, none, [⟨"noise", .texture .tex2D .void, 0, 1⟩,
      ⟨"PerFrame_map", .texture .tex2D .void, 1, 1⟩], 2⟩]⟩,
    ⟨"Lit_Persistent", [⟨.perFrame, none, [⟨"map", .texture .tex2D .void, 0, 1⟩], 1⟩]⟩]

theorem constants_unambiguous_iff_clashingProgram :
    ∃ ts, clashingProgram.resolveTables = .ok ts ∧ ts.tables = clashingTables ∧
      ("SRT_RES_IDX_Lit_Persistent_PerFrame_map", 1) ∈ clashingTables.flatMap
        ResourceTable.constants ∧
      ("SRT_RES_IDX_Lit_Persistent_PerFrame_map", 0) ∈ clashingTables.flatMap
        ResourceTable.constants ∧
      ¬ ((clashingTables.flatMap ResourceTable.constants).map Prod.fst).Nodup := by
  obtain ⟨ts, hts⟩ : ∃ ts, clashingProgram.resolveTables = .ok ts := ⟨_, rfl⟩
  have htables : ts.tables = clashingTables := by
    have hsorted : Text.sortNames ["Lit", "Lit_Persistent"] = ["Lit", "Lit_Persistent"] :=
      mergeSort_of_pairwise (by decide)
    cases hts
    exact congrArg (List.filterMap _) hsorted
  refine ⟨ts, hts, htables, by decide +kernel, by decide +kernel, fun hnodup => ?_⟩
  have hclash := (constants_unambiguous_iff hts).2.1
  rw [htables] at hclash
  refine hclash.1 hnodup _ (.head _) _ (.tail _ (.head _)) ?_
  exact ⟨_, .tail _ (.head _), _, .head _, "", by decide +kernel, by decide +kernel⟩

end Program
end ShaderDialect
