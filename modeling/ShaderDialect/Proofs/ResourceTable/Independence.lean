import ShaderDialect.Proofs.ResourceTable.Declarations

/-! Tables do not depend on each other. Each comes out as it does by itself, although the shared
sets that one table has resolved are kept for the next: so a shared set is the same in every table,
the order in which tables are declared does not matter, and neither does a table that fails. -/
namespace ShaderDialect
open List

theorem Text.sortNames_of_perm {names names' : List String} (h : names'.Perm names) :
    sortNames names' = sortNames names := by
  have hsorted : ∀ l : List String, (sortNames l).Pairwise (· ≤ ·) := by
    intro l
    have hl : (sortNames l).Pairwise fun a b => decide (a ≤ b) = true :=
      pairwise_mergeSort (by simpa using fun a b c => String.le_trans)
        (by simpa using String.le_total) l
    exact hl.imp of_decide_eq_true
  have hperm : (sortNames names').Perm (sortNames names) :=
    (mergeSort_perm names' _).trans (h.trans (mergeSort_perm names _).symm)
  exact hperm.eq_of_pairwise (fun a b _ _ => String.le_antisymm) (hsorted names') (hsorted names)

section Lists
variable {n : String} {α γ : Type} {name : α → String} {contents : α → γ} {l l' : List α}

theorem find?_of_filter (h : l'.filter (name · == n) = l.filter (name · == n)) :
    l'.find? (name · == n) = l.find? (name · == n) := by
  rw [← head?_filter, h, head?_filter]

theorem mem_of_filter {a : α}
    (h : l'.filter (name · == name a) = l.filter (name · == name a)) (ha : a ∈ l') : a ∈ l := by
  have hmem : a ∈ l'.filter (name · == name a) := mem_filter.2 ⟨ha, by simp⟩
  rw [h] at hmem
  exact (mem_filter.1 hmem).1

end Lists

namespace Program
variable {n : String} {names : String → Prop}

/-- Two programs declare the same shared sets, and the same tables of each of some names, where the
declarations of one name come in the same order. -/
structure SameTables (names : String → Prop) (p q : Program) : Prop where
  sharedSets : q.sharedDecls = p.sharedDecls
  tables : ∀ n, names n →
    q.tableDecls.filter (·.name == n) = p.tableDecls.filter (·.name == n)

variable {p q : Program} {ts us : ResourceTables}

/-- The tables of other names only have to agree among themselves. -/
theorem SameTables.exists_resolveTables (h : SameTables names p q) (hp : p.resolveTables = .ok ts)
    (hother : ∀ n, ¬ names n →
      Agree TableDecl.name TableDecl.signature (q.tableDecls.filter (·.name == n))) :
    ∃ us, q.resolveTables = .ok us := by
  obtain ⟨htables, hshared⟩ := resolveTables_isOk_iff.1 ⟨ts, hp⟩
  refine resolveTables_isOk_iff.2 ⟨?_, ?_⟩
  · intro d hd d' hd' hname
    by_cases hn : names d.name
    · exact htables d (mem_of_filter (h.tables _ hn) hd) d'
        (mem_of_filter (h.tables _ (hname ▸ hn)) hd') hname
    · exact hother d.name hn d (mem_filter.2 ⟨hd, by simp⟩) d'
        (mem_filter.2 ⟨hd', by simp [hname]⟩) hname
  · have hsame : q.allItems.filterMap Item.sharedSet? = p.allItems.filterMap Item.sharedSet? :=
      h.sharedSets
    rw [hsame]
    exact hshared

theorem SameTables.lookup_entries (h : SameTables names p q) (hp : p.resolveTables = .ok ts)
    (hq : q.resolveTables = .ok us) (hn : names n) : us.entries.lookup n = ts.entries.lookup n := by
  rw [Program.lookup_entries hq, Program.lookup_entries hp, h.sharedSets,
    find?_of_filter (h.tables n hn)]

theorem SameTables.entries_perm (h : SameTables (fun _ => True) p q)
    (hp : p.resolveTables = .ok ts) (hq : q.resolveTables = .ok us) :
    us.entries.Perm ts.entries := by
  obtain ⟨firsts, hnodup, hfirst, hts⟩ := entries_of_resolveTables hp
  obtain ⟨firsts', hnodup', hfirst', hus⟩ := entries_of_resolveTables hq
  have hmem : ∀ d, d ∈ firsts' ↔ d ∈ firsts := by
    intro d
    have heq := find?_of_filter (h.tables d.name trivial)
    have hiff := @find?_eq_some_of_nodup _ _ _ _ _ _ hnodup d.name d
    have hiff' := @find?_eq_some_of_nodup _ _ _ _ _ _ hnodup' d.name d
    rw [hfirst d.name] at hiff
    rw [hfirst' d.name, heq] at hiff'
    simpa using hiff'.symm.trans hiff
  rw [hts, hus, h.sharedSets]
  exact ((perm_ext_iff_of_nodup hnodup'.of_map hnodup.of_map).2 hmem).map _

theorem resolve_of_shared (h : p.resolveTables = .ok ts) {name : String} {t : ResourceTable}
    {s : TableSet} (ht : ts.get? n = some t) (hs : s ∈ t.sets) (hshared : s.shared = some name) :
    ∃ d, p.sharedDecls.find? (·.name == name) = some d ∧
      d.set.resolve d.name (some d.name) = .ok s := by
  obtain ⟨decl, -, hdecl⟩ := (get?_eq_some h).1 ht
  obtain ⟨source, -, hsource⟩ := TableDecl.exists_source hdecl hs
  cases source with
  | own set =>
    have hnone := (SetBlock.resolve_eq_ok.1 hsource).2.2
    rw [hshared] at hnone
    cases hnone
  | shared included loc =>
    obtain ⟨d, -, hd, rfl, hset⟩ := TableDecl.resolveSet_shared hsource
    have hname := (SetBlock.resolve_eq_ok.1 hset).2.2
    rw [hshared, Option.some.injEq] at hname
    exact ⟨d, hname ▸ hd, hset⟩

end Program

namespace ResourceTables
variable {ts us : ResourceTables}

theorem tables_of_perm (h : us.entries.Perm ts.entries)
    (hlookup : ∀ n, us.entries.lookup n = ts.entries.lookup n) : us.tables = ts.tables := by
  have hget : us.get? = ts.get? := funext fun n => by rw [get?, hlookup, get?]
  rw [tables, tables, hget, Text.sortNames_of_perm (h.map _)]

theorem failed_of_perm (h : us.entries.Perm ts.entries) : us.failed = ts.failed := by
  rw [failed, failed, Text.sortNames_of_perm (h.filterMap _)]

theorem faults_of_perm (h : us.entries.Perm ts.entries) : us.faults.Perm ts.faults :=
  h.filterMap _

end ResourceTables

namespace Program

/-- Every table comes out as its first declaration does by itself, with what it includes resolved
for it alone. A shared set is therefore the same wherever it is included. Where the declarations of
tables with different names change places, only the order of the faults changes; and where the
declarations of one table are removed or replaced, whether it has failed or not, all other tables
stay as they are. -/
theorem resolveTables_independent {p : Program} {ts : ResourceTables}
    (h : p.resolveTables = .ok ts) :
    (∀ n, ts.entries.lookup n =
      (p.tableDecls.find? (·.name == n)).map (TableDecl.resolve p.sharedDecls)) ∧
    (∀ n n' t t' s s' name, ts.get? n = some t → ts.get? n' = some t' → s ∈ t.sets → s' ∈ t'.sets →
      s.shared = some name → s'.shared = some name → s = s') ∧
    (∀ q, SameTables (fun _ => True) p q → ∃ us, q.resolveTables = .ok us ∧
      us.tables = ts.tables ∧ us.failed = ts.failed ∧ us.faults.Perm ts.faults) ∧
    ∀ n q, SameTables (· ≠ n) p q →
      Agree TableDecl.name TableDecl.signature (q.tableDecls.filter (·.name == n)) →
      ∃ us, q.resolveTables = .ok us ∧
        ∀ m, m ≠ n → us.entries.lookup m = ts.entries.lookup m := by
  refine ⟨lookup_entries h, ?_, fun q hq => ?_, fun n q hq hn => ?_⟩
  · intro n n' t t' s s' name ht ht' hs hs' hname hname'
    obtain ⟨d, hd, hset⟩ := resolve_of_shared h ht hs hname
    obtain ⟨d', hd', hset'⟩ := resolve_of_shared h ht' hs' hname'
    obtain rfl : d = d' := Option.some.inj (hd.symm.trans hd')
    exact Except.ok.inj (hset.symm.trans hset')
  · obtain ⟨us, hus⟩ := hq.exists_resolveTables h fun n hn => absurd trivial hn
    have hperm := hq.entries_perm h hus
    exact ⟨us, hus, ResourceTables.tables_of_perm hperm fun n => hq.lookup_entries h hus trivial,
      ResourceTables.failed_of_perm hperm, ResourceTables.faults_of_perm hperm⟩
  · obtain ⟨us, hus⟩ := hq.exists_resolveTables h fun m hm => not_not.1 hm ▸ hn
    exact ⟨us, hus, fun m hm => hq.lookup_entries h hus hm⟩

section Example

/-- A program with a good and a bad shared set and some tables. -/
def sharing (tables : List TableDecl) : Program :=
  let loc : Loc := ⟨"lit.fsl", 1⟩
  ⟨[.sharedSet ⟨"Frame", ⟨.perFrame, [⟨"camera", .constantBuffer .void, 1, .perFrame, loc⟩], loc⟩⟩,
    .sharedSet ⟨"Draw", ⟨.perDraw, [⟨"world", .constantBuffer .void, 1, .perFrame, loc⟩], loc⟩⟩] ++
    tables.map .table⟩

def including (name : String) (sets : List String) : TableDecl :=
  ⟨name, sets.map fun set => .shared set ⟨"lit.fsl", 2⟩, ⟨"lit.fsl", 2⟩⟩

/-- A table that fails after its first set has been kept, and two that follow it. -/
def lostFirst : List TableDecl :=
  [including "Lost" ["Frame", "Draw"], including "Lit" ["Frame"], including "Plain" ["Frame"]]

def frameSet : TableSet :=
  ⟨.perFrame, some "Frame", [⟨"camera", .constantBuffer .void, 0, 1⟩], 1⟩

theorem filter_lostFirst_reverse (n : String) :
    lostFirst.reverse.filter (·.name == n) = lostFirst.filter (·.name == n) := by
  by_cases hlost : "Lost" = n
  · subst hlost
    rfl
  · by_cases hlit : "Lit" = n
    · subst hlit
      rfl
    · by_cases hplain : "Plain" = n
      · subst hplain
        rfl
      · simp [lostFirst, including, hlost, hlit, hplain]

/-- The table that fails is declared first, last or not at all. -/
theorem resolveTables_independent_lostFirst :
    ∃ ts us vs, (sharing lostFirst).resolveTables = .ok ts ∧ ts.failed = ["Lost"] ∧
      ts.get? "Lit" = some ⟨"Lit", [frameSet]⟩ ∧ ts.get? "Plain" = some ⟨"Plain", [frameSet]⟩ ∧
      (sharing lostFirst.reverse).resolveTables = .ok us ∧ us.tables = ts.tables ∧
      us.failed = ts.failed ∧ us.faults.Perm ts.faults ∧
      (sharing lostFirst.tail).resolveTables = .ok vs ∧
      ∀ m, m ≠ "Lost" → vs.entries.lookup m = ts.entries.lookup m := by
  obtain ⟨ts, hts⟩ : ∃ ts, (sharing lostFirst).resolveTables = .ok ts := ⟨_, rfl⟩
  obtain ⟨hresult, -, horder, hother⟩ := resolveTables_independent hts
  obtain ⟨us, hus, htables, hfailed, hfaults⟩ := horder (sharing lostFirst.reverse)
    ⟨rfl, fun n _ => filter_lostFirst_reverse n⟩
  obtain ⟨vs, hvs, hlookup⟩ := hother "Lost" (sharing lostFirst.tail)
    ⟨rfl, fun n hn => (filter_cons_of_neg (by simpa [including] using hn.symm)).symm⟩
    (by intro d hd; cases hd)
  refine ⟨ts, us, vs, hts, ?_, ?_, ?_, hus, htables, hfailed, hfaults, hvs, hlookup⟩
  · cases hts
    exact mergeSort_singleton _
  · rw [ResourceTables.get?, hresult]
    rfl
  · rw [ResourceTables.get?, hresult]
    rfl

end Example

end Program
end ShaderDialect
