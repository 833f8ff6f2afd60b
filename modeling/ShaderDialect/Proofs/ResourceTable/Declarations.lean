import ShaderDialect.Proofs.ResourceTable.Tables

/-! What the tables of a program depend on. They can be listed exactly if whatever is declared again
is declared with the same signature, and so with the same contents where names are words. Each is
then the first declaration of its name, resolved with the first declarations of the shared sets that
it includes. -/
namespace ShaderDialect

open List Success

theorem lookup_map {α κ β : Type} [BEq κ] [LawfulBEq κ] (key : α → κ) (g : α → β) (l : List α)
    (k : κ) :
    (l.map fun a => (key a, g a)).lookup k = (l.find? (key · == k)).map g := by
  induction l with
  | nil => rfl
  | cons a l ih =>
    rw [map_cons, lookup_cons, find?_cons, ih]
    by_cases h : k = key a
    · simp [h]
    · have hne : (key a == k) = false := by simpa using Ne.symm h
      have hne' : (k == key a) = false := by simpa using h
      rw [hne, hne']

/-- What has the same name agrees in what is compared. -/
def Agree {α γ : Type} (name : α → String) (compared : α → γ) (l : List α) : Prop :=
  ∀ a ∈ l, ∀ b ∈ l, name a = name b → compared a = compared b

section Firsts
variable {α γ : Type} {name : α → String} {compared : α → γ} {seen kept more : List α} {a b : α}

theorem Agree.mono (h : Agree name compared more) (hsub : ∀ a ∈ seen, a ∈ more) :
    Agree name compared seen := by
  intro a ha b hb hn
  exact h a (hsub a ha) b (hsub b hb) hn

theorem Firsts.agree (h : Firsts name compared seen kept) : Agree name compared seen := by
  intro a ha b hb hn
  obtain ⟨first, hfirst, hname, hcompared⟩ := h.kept_of_seen a ha
  rw [← hcompared]
  exact h.compared_eq hfirst hb (hn.symm.trans hname.symm)

/-- Of each name the first element is kept. -/
def KeepsFirst (name : α → String) (seen kept : List α) : Prop :=
  ∀ n, kept.find? (name · == n) = seen.find? (name · == n)

end Firsts

namespace Declared
variable {items : List Item} {d d' : Declared} {i : Item}

/-- What some items declare again, they declare with the same signature. -/
structure Coherent (items : List Item) : Prop where
  tables : Agree TableDecl.name TableDecl.signature (items.filterMap Item.table?)
  sharedSets : Agree SharedSet.name (·.set.signature) (items.filterMap Item.sharedSet?)

theorem Of.exists_add (h : d.Of items) (hc : Coherent (items ++ [i])) :
    ∃ d', d.add i = .ok d' := by
  cases i with
  | sharedSet s =>
    simp only [Declared.add]
    cases hf : d.sharedSets.find? (·.name == s.name) with
    | none => exact ⟨_, rfl⟩
    | some first =>
      have hseen := h.sharedSets.seen_of_kept first (mem_of_find?_eq_some hf)
      have hname : first.name = s.name := by simpa using find?_some hf
      have heq := hc.sharedSets first (by simp [filterMap_append, hseen]) s
        (by simp [filterMap_append, Item.sharedSet?]) hname
      exact ⟨d, if_pos heq⟩
  | table t =>
    simp only [Declared.add]
    cases hf : d.tables.find? (·.name == t.name) with
    | none => exact ⟨_, rfl⟩
    | some first =>
      have hseen := h.tables.seen_of_kept first (mem_of_find?_eq_some hf)
      have hname : first.name = t.name := by simpa using find?_some hf
      have heq := hc.tables first (by simp [filterMap_append, hseen]) t
        (by simp [filterMap_append, Item.table?]) hname
      exact ⟨d, if_pos heq⟩
  | _ => exact ⟨d, rfl⟩

theorem Of.exists_foldlM {more : List Item} (h : d.Of items) (hc : Coherent (items ++ more)) :
    ∃ d', more.foldlM Declared.add d = .ok d' := by
  induction more generalizing items d with
  | nil => exact ⟨d, rfl⟩
  | cons i more ih =>
    rw [append_cons] at hc
    have hfirst : Coherent (items ++ [i]) := by
      refine ⟨hc.tables.mono fun t ht => ?_, hc.sharedSets.mono fun s hs => ?_⟩
      · rw [filterMap_append]
        exact mem_append_left _ ht
      · rw [filterMap_append]
        exact mem_append_left _ hs
    obtain ⟨d₁, h₁⟩ := h.exists_add hfirst
    obtain ⟨d', hd'⟩ := ih (h.add h₁) hc
    exact ⟨d', by rw [foldlM_cons, h₁]; exact hd'⟩

end Declared

/-- Two things that are declared have the same name and differ otherwise. -/
def Conflict {α γ : Type} (declared : α → Prop) (name : α → String) (compared : α → γ) : Prop :=
  ∃ a b, declared a ∧ declared b ∧ name a = name b ∧ compared a ≠ compared b

section Conflict
variable {α γ δ : Type} {declared : α → Prop} {name : α → String} {compared : α → γ} {other : α → δ}
  {l : List α}

theorem not_agree_iff (h : ∀ {a}, a ∈ l ↔ declared a) :
    ¬ Agree name compared l ↔ Conflict declared name compared := by
  simp only [Agree, Conflict, not_forall, exists_prop, h, exists_and_left]

theorem conflict_congr
    (h : ∀ {a b}, declared a → declared b → (compared a = compared b ↔ other a = other b)) :
    Conflict declared name compared ↔ Conflict declared name other := by
  constructor
  · rintro ⟨a, b, ha, hb, hname, hne⟩
    exact ⟨a, b, ha, hb, hname, mt (h ha hb).2 hne⟩
  · rintro ⟨a, b, ha, hb, hname, hne⟩
    exact ⟨a, b, ha, hb, hname, mt (h ha hb).1 hne⟩

end Conflict

/-- Of the shared sets only the first of each name counts. -/
theorem TableDecl.resolve_congr {sharedSets sharedSets' : List SharedSet}
    (h : KeepsFirst SharedSet.name sharedSets sharedSets') :
    resolve sharedSets' = resolve sharedSets := by
  have hset : ∀ table, resolveSet sharedSets' table = resolveSet sharedSets table := by
    intro table
    funext source
    cases source with
    | own set => rfl
    | shared name loc => rw [resolveSet, h name, resolveSet]
  funext d
  rw [resolve, hset, resolve]

namespace Program
variable {p : Program} {ts : ResourceTables}

theorem resolveTables_isOk_iff :
    (∃ ts, p.resolveTables = .ok ts) ↔ Declared.Coherent p.allItems := by
  constructor
  · rintro ⟨ts, h⟩
    obtain ⟨d, hd, -⟩ := resolveTables_eq_ok h
    exact ⟨hd.tables.agree, hd.sharedSets.agree⟩
  · intro hc
    obtain ⟨d, hd⟩ : ∃ d, p.declared = .ok d := Declared.of_nil.exists_foldlM hc
    exact ⟨_, map_eq_ok.2 ⟨d, hd, rfl⟩⟩

/-- The tables are the first declarations of their names, in some order. -/
theorem entries_of_resolveTables (h : p.resolveTables = .ok ts) :
    ∃ firsts : List TableDecl, (firsts.map TableDecl.name).Nodup ∧
      KeepsFirst TableDecl.name p.tableDecls firsts ∧
      ts.entries = firsts.map fun d => (d.name, d.resolve p.sharedDecls) := by
  rw [resolveTables, map_eq_ok] at h
  obtain ⟨d, hd, rfl⟩ := h
  have hof := of_declared hd
  refine ⟨d.tables, hof.tables.nodup, hof.tables.first, ?_⟩
  rw [ResourceTables.resolveAll_eq, ResourceTables.ofDeclared,
    TableDecl.resolve_congr hof.sharedSets.first]
  rfl

theorem lookup_entries (h : p.resolveTables = .ok ts) (n : String) :
    ts.entries.lookup n =
      (p.tableDecls.find? (·.name == n)).map (TableDecl.resolve p.sharedDecls) := by
  obtain ⟨firsts, -, hfirst, he⟩ := entries_of_resolveTables h
  rw [he, lookup_map, hfirst n]

theorem get?_eq_some (h : p.resolveTables = .ok ts) {n : String} {t : ResourceTable} :
    ts.get? n = some t ↔
      ∃ d, p.tableDecls.find? (·.name == n) = some d ∧ d.resolve p.sharedDecls = .ok t := by
  rw [ResourceTables.get?, lookup_entries h]
  cases p.tableDecls.find? (·.name == n) with
  | none => simp
  | some d => cases hd : d.resolve p.sharedDecls <;> simp [hd]

/-- A shared set or a table is declared again, and not as before. -/
def Redeclared {σ τ : Type} (p : Program) (ofSet : SharedSet → σ) (ofTable : TableDecl → τ) :
    Prop :=
  Conflict p.HasSharedSet SharedSet.name ofSet ∨ Conflict p.HasTable TableDecl.name ofTable

theorem redeclared_signature_iff (h : p.Worded) :
    p.Redeclared (·.set.signature) TableDecl.signature ↔
      p.Redeclared (·.set.contents) TableDecl.contents := by
  refine or_congr (conflict_congr fun hs hs' => ?_) (conflict_congr fun ht ht' => ?_)
  · exact ⟨h.set_contents hs hs', congrArg SetContents.signature⟩
  · refine ⟨h.table_contents ht ht', fun he => ?_⟩
    rw [TableDecl.signature, he, TableDecl.signature]

/-- The tables of a program cannot be resolved exactly if a shared set or a table is declared again
with another signature, wherever in the program. Where names are words, these are the ones that are
declared again with other contents. -/
theorem resolveTables_fails_iff_redeclared (p : Program) :
    ((∃ e, p.resolveTables = .error e) ↔
      p.Redeclared (·.set.signature) TableDecl.signature) ∧
    (p.Worded → ((∃ e, p.resolveTables = .error e) ↔
      p.Redeclared (·.set.contents) TableDecl.contents)) := by
  have hfails : (∃ e, p.resolveTables = .error e) ↔
      p.Redeclared (·.set.signature) TableDecl.signature := by
    have hok : (∃ e, p.resolveTables = .error e) ↔ ¬ ∃ ts, p.resolveTables = .ok ts := by
      cases p.resolveTables <;> simp
    have hcoherent : Declared.Coherent p.allItems ↔
        Agree SharedSet.name (·.set.signature) p.sharedDecls ∧
          Agree TableDecl.name TableDecl.signature p.tableDecls :=
      ⟨fun h => ⟨h.sharedSets, h.tables⟩, fun h => ⟨h.2, h.1⟩⟩
    rw [hok, resolveTables_isOk_iff, hcoherent, not_and_or, not_agree_iff mem_sharedDecls_iff,
      not_agree_iff mem_tableDecls_iff, Redeclared]
  exact ⟨hfails, fun h => hfails.trans (redeclared_signature_iff h)⟩

def lightsTable (elem : ValueType) (line : Nat) : TableDecl :=
  let loc : Loc := ⟨"lights.fsl", line⟩
  ⟨"Lights", [.shared "Frame" loc,
    .own ⟨.perDraw, [⟨"lights", .buffer elem, 1, .perDraw, loc⟩], loc⟩], loc⟩

/-- The table is declared in a branch of a block, and again below. -/
def lightsTwice (elem : ValueType) : Program :=
  let loc : Loc := ⟨"lights.fsl", 1⟩
  ⟨[.block .pixel .empty "lit"
      [.branch (.symbol "FT_LIT") [] [.table (lightsTable elem 3)] loc] loc,
    .table (lightsTable (.struct "Light") 9)]⟩

theorem resolveTables_fails_iff_redeclared_lightsTwice :
    (lightsTwice (.vector .float 4)).Redeclared (·.set.contents) TableDecl.contents ∧
      ¬ (lightsTwice (.struct "Light")).Redeclared (·.set.contents) TableDecl.contents := by
  have hfails : ∃ e, (lightsTwice (.vector .float 4)).resolveTables = .error e := ⟨_, rfl⟩
  have hok : ¬ ∃ e, (lightsTwice (.struct "Light")).resolveTables = .error e := by
    rintro ⟨e, h⟩
    obtain ⟨ts, hts⟩ := exists_ok (x := (lightsTwice (.struct "Light")).resolveTables)
      (by decide +kernel)
    cases h.symm.trans hts
  exact ⟨((resolveTables_fails_iff_redeclared _).2 (by decide)).1 hfails,
    mt ((resolveTables_fails_iff_redeclared _).2 (by decide)).2 hok⟩

end Program
end ShaderDialect
