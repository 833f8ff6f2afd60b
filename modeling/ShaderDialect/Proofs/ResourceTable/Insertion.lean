import ShaderDialect.Proofs.ResourceTable.Declarations

/-! Tables when one declaration is inserted into one of their sets. The places at which things are
declared do not matter for tables that can be resolved, so all that changes is the set itself: what
stands before the new declaration keeps its index, and what stands after it moves on by its
length. -/
namespace ShaderDialect

open List Success

/-- The same resource, some indices further on. -/
def TableResource.shift (n : Nat) (r : TableResource) : TableResource :=
  { r with index := r.index + n }

namespace Consecutive
variable {name : String} {start stop stop' : Nat} {rs rs' : List TableResource}

theorem unique (h : Consecutive start rs stop) (h' : Consecutive start rs' stop')
    (hs : rs.map TableResource.signature = rs'.map TableResource.signature) :
    rs = rs' ∧ stop = stop' := by
  induction h generalizing rs' with
  | nil =>
    obtain rfl : rs' = [] := by simpa using hs.symm
    cases h'
    exact ⟨rfl, rfl⟩
  | @cons n stop r rs hi _ ih =>
    cases h' with
    | nil => simp at hs
    | @cons _ _ r' rs' hi' hrest' =>
      rw [map_cons, map_cons, List.cons.injEq] at hs
      have hr : r = r' := by
        obtain ⟨name, kind, index, length⟩ := r
        obtain ⟨name', kind', index', length'⟩ := r'
        simp_all [TableResource.signature]
      subst hr
      obtain ⟨rfl, rfl⟩ := ih hrest' hs.2
      exact ⟨rfl, rfl⟩

theorem shift (h : Consecutive start rs stop) (n : Nat) :
    Consecutive (start + n) (rs.map (TableResource.shift n)) (stop + n) := by
  induction h with
  | nil => exact .nil _
  | @cons m stop r rs hi _ ih =>
    refine .cons (by rw [TableResource.shift, hi]) ?_
    have hlength : (r.shift n).length = r.length := rfl
    have hstart : m + r.length + n = m + n + (r.shift n).length := by omega
    rwa [hstart] at ih

/-- A resource that comes in between moves on all that follow it. -/
theorem insert (h : Consecutive start (rs ++ rs') stop) (name : String) (kind : ResourceKind)
    (n : Nat) :
    ∃ index, Consecutive start (rs ++ ⟨name, kind, index, n⟩ :: rs'.map (TableResource.shift n))
      (stop + n) := by
  induction rs generalizing start with
  | nil => exact ⟨start, .cons rfl (h.shift n)⟩
  | cons r rs ih =>
    cases h with
    | cons hi hrest =>
      obtain ⟨index, hindex⟩ := ih hrest
      exact ⟨index, .cons hi hindex⟩

/-- What one more signature in between does to resources and to the index after the last. -/
theorem eq_of_insert (h : Consecutive start rs stop) (h' : Consecutive start rs' stop')
    {before after : List (String × ResourceKind × Nat)} {kind : ResourceKind} {n : Nat}
    (hs : rs.map TableResource.signature = before ++ after)
    (hs' : rs'.map TableResource.signature = before ++ (name, kind, n) :: after) :
    stop' = stop + n ∧ ∃ index, rs' = rs.take before.length ++
      ⟨name, kind, index, n⟩ :: (rs.drop before.length).map (TableResource.shift n) := by
  rw [← take_append_drop before.length rs] at h
  -- The resources with the new one in between are consecutive too, so they are the others.
  obtain ⟨index, hindex⟩ := h.insert name kind n
  have hbefore : (rs.take before.length).map TableResource.signature = before := by
    rw [map_take, hs, take_left]
  have hafter : (rs.drop before.length).map TableResource.signature = after := by
    rw [map_drop, hs, drop_left]
  have hshift : ((rs.drop before.length).map (TableResource.shift n)).map TableResource.signature =
      after := by
    rw [map_map, ← hafter]
    rfl
  obtain ⟨hrs, hstop⟩ := h'.unique hindex (by
    rw [hs', map_append, map_cons, hbefore, hshift]
    rfl)
  exact ⟨hstop, index, hrs⟩

end Consecutive

/-- What counts of a shared set when it is declared again. -/
def SharedSet.contents (s : SharedSet) : String × SetContents := (s.name, s.set.contents)

namespace SetBlock
variable {f : Frequency} {decls : List (String × ResourceKind × Nat × Frequency)}
  {scope scope' : String} {shared : Option String} {s s' : SetBlock} {t : TableSet}

theorem place_of_contents {frequency : Frequency} {next : Nat} {ds ds' : List ResourceDecl}
    {result : List TableResource × Nat}
    (hc : ds.map ResourceDecl.contents = ds'.map ResourceDecl.contents)
    (h : place scope frequency next ds = .ok result) :
    place scope' frequency next ds' = .ok result := by
  induction ds generalizing next ds' result with
  | nil =>
    obtain rfl : ds' = [] := by simpa using hc.symm
    exact h
  | cons d ds ih =>
    cases ds' with
    | nil => simp at hc
    | cons d' ds' =>
      rw [map_cons, map_cons, List.cons.injEq] at hc
      obtain ⟨hname, hkind, hlength, hfrequency⟩ :
          d.name = d'.name ∧ d.kind = d'.kind ∧ d.length = d'.length ∧
          d.frequency = d'.frequency := by
        simpa [ResourceDecl.contents] using hc.1
      rw [place] at h ⊢
      rw [← hname, ← hkind, ← hlength, ← hfrequency]
      split at h
      · cases h
      · next hf =>
        rw [if_neg hf]
        split at h
        · cases h
        · next hrange =>
          rw [if_neg hrange]
          split at h
          · next rest count hrest => rwa [ih hc.2 hrest]
          · cases h

theorem resolve_of_contents (hc : s.contents = s'.contents) (h : s.resolve scope shared = .ok t) :
    s'.resolve scope' shared = .ok t := by
  obtain ⟨hfrequency, hdecls⟩ := SetContents.listed.inj hc
  rw [resolve_eq_ok] at h ⊢
  rw [← hfrequency]
  exact ⟨place_of_contents hdecls h.1, h.2⟩

/-- A resolved set is what its contents list, from zero on. -/
theorem consecutive_of_resolve (hc : s.contents = .listed f decls)
    (h : s.resolve scope shared = .ok t) :
    t.frequency = f ∧ t.shared = shared ∧
      t.resources.map TableResource.signature = decls.map (fun d => (d.1, d.2.1, d.2.2.1)) ∧
      Consecutive 0 t.resources t.count := by
  obtain ⟨rfl, rfl⟩ := SetContents.listed.inj hc
  obtain ⟨hplace, hfrequency, hshared⟩ := resolve_eq_ok.1 h
  obtain ⟨hsignature, hconsecutive⟩ := place_eq_ok hplace
  refine ⟨hfrequency, hshared, ?_, hconsecutive⟩
  rw [hsignature, map_map]
  rfl

end SetBlock

namespace TableDecl
variable {f : Frequency} {decls : List (String × ResourceKind × Nat × Frequency)} {d d' : TableDecl}
  {sharedSets sharedSets' : List SharedSet} {name table : String} {set : TableSet}
  {t : ResourceTable} {k : Nat}

theorem find?_of_contents
    (h : sharedSets.map SharedSet.contents = sharedSets'.map SharedSet.contents) {s : SharedSet}
    (hs : sharedSets.find? (·.name == name) = some s) :
    ∃ s', sharedSets'.find? (·.name == name) = some s' ∧ s.contents = s'.contents := by
  have hmap := congrArg (List.find? fun c => c.1 == name) h
  rw [find?_map, find?_map] at hmap
  have hsome : sharedSets.find? ((fun c => c.1 == name) ∘ SharedSet.contents) = some s := hs
  rw [hsome, Option.map_some] at hmap
  obtain ⟨s', hs', he⟩ := Option.map_eq_some_iff.1 hmap.symm
  exact ⟨s', hs', he.symm⟩

theorem resolveSet_of_contents
    (h : sharedSets.map SharedSet.contents = sharedSets'.map SharedSet.contents)
    {source source' : SetSource} (hc : source.contents = source'.contents)
    (hset : resolveSet sharedSets table source = .ok set) :
    resolveSet sharedSets' table source' = .ok set := by
  cases source with
  | own block =>
    cases source' with
    | own block' => exact SetBlock.resolve_of_contents hc hset
    | shared => cases hc
  | shared name loc =>
    cases source' with
    | own => cases hc
    | shared name' loc' =>
      obtain rfl : name = name' := SetContents.included.inj hc
      rw [resolveSet] at hset ⊢
      split at hset
      · cases hset
      · next s hs =>
        obtain ⟨s', hs', he⟩ := find?_of_contents h hs
        obtain ⟨hname, hcontents⟩ := Prod.mk.inj he
        simp only [hs', ← hname]
        exact SetBlock.resolve_of_contents hcontents hset

theorem getElem?_of_resolve (h : d.resolve sharedSets = .ok t) :
    t.sets[k]? = some set ↔
      ∃ source, d.sets[k]? = some source ∧ resolveSet sharedSets d.name source = .ok set := by
  have hsets := congrArg (·[k]?) (resolve_eq_ok.1 h).2.1
  simp only [getElem?_map] at hsets
  constructor
  · intro hk
    rw [hk] at hsets
    exact Option.map_eq_some_iff.1 hsets
  · rintro ⟨source, hk, hsource⟩
    rw [hk, Option.map_some, hsource] at hsets
    obtain ⟨set', hk', he⟩ := Option.map_eq_some_iff.1 hsets.symm
    rw [hk', Except.ok.inj he]

theorem length_of_resolve (h : d.resolve sharedSets = .ok t) :
    t.sets.length = d.contents.length := by
  have hlength := congrArg List.length (resolve_eq_ok.1 h).2.1
  simpa [contents] using hlength.symm

theorem getElem?_contents {c : SetContents} :
    d.contents[k]? = some c ↔ ∃ source, d.sets[k]? = some source ∧ source.contents = c := by
  rw [contents, getElem?_map, Option.map_eq_some_iff]

theorem getElem?_of_contents
    (h : sharedSets.map SharedSet.contents = sharedSets'.map SharedSet.contents)
    {t' : ResourceTable} (hname : d.name = d'.name) (hd : d.resolve sharedSets = .ok t)
    (hd' : d'.resolve sharedSets' = .ok t') (hk : d.contents[k]? = d'.contents[k]?)
    (hset : t.sets[k]? = some set) : t'.sets[k]? = some set := by
  obtain ⟨source, hsource, hresolve⟩ := (getElem?_of_resolve hd).1 hset
  have hc : d.contents[k]? = some source.contents := getElem?_contents.2 ⟨source, hsource, rfl⟩
  obtain ⟨source', hsource', hsame⟩ := getElem?_contents.1 (hk.symm.trans hc)
  rw [hname] at hresolve
  exact (getElem?_of_resolve hd').2
    ⟨source', hsource', resolveSet_of_contents h hsame.symm hresolve⟩

theorem exists_of_listed (h : d.resolve sharedSets = .ok t)
    (hk : d.contents[k]? = some (.listed f decls)) :
    ∃ s, t.sets[k]? = some s ∧ s.frequency = f ∧ s.shared = none ∧
      s.resources.map TableResource.signature = decls.map (fun d => (d.1, d.2.1, d.2.2.1)) ∧
      Consecutive 0 s.resources s.count := by
  obtain ⟨hlt, -⟩ := List.getElem?_eq_some_iff.1 hk
  rw [← length_of_resolve h] at hlt
  have hset : t.sets[k]? = some (t.sets.get ⟨k, hlt⟩) := getElem?_eq_getElem hlt
  obtain ⟨source, hsource, hresolve⟩ := (getElem?_of_resolve h).1 hset
  have hc : d.contents[k]? = some source.contents := getElem?_contents.2 ⟨source, hsource, rfl⟩
  have hlisted : source.contents = .listed f decls := Option.some.inj (hc.symm.trans hk)
  cases source with
  | own block => exact ⟨_, hset, SetBlock.consecutive_of_resolve hlisted hresolve⟩
  | shared => cases hlisted

theorem resolveSets_of_contents
    (h : sharedSets.map SharedSet.contents = sharedSets'.map SharedSet.contents)
    {sources sources' : List SetSource} {sets : List TableSet}
    (hc : sources.map SetSource.contents = sources'.map SetSource.contents)
    (hsets : sources.map (resolveSet sharedSets table) = sets.map .ok) :
    sources'.map (resolveSet sharedSets' table) = sets.map .ok := by
  induction sources generalizing sources' sets with
  | nil =>
    obtain rfl : sources' = [] := by simpa using hc.symm
    exact hsets
  | cons source sources ih =>
    cases sources' with
    | nil => simp at hc
    | cons source' sources' =>
      cases sets with
      | nil => simp at hsets
      | cons set sets =>
        rw [map_cons, map_cons, List.cons.injEq] at hc hsets
        rw [map_cons, map_cons, ih hc.2 hsets.2,
          resolveSet_of_contents h hc.1 hsets.1]

/-- A table that can be resolved comes out the same wherever it and what it includes are
declared. -/
theorem resolve_of_contents
    (h : sharedSets.map SharedSet.contents = sharedSets'.map SharedSet.contents)
    (hname : d.name = d'.name) (hc : d.contents = d'.contents) (ht : d.resolve sharedSets = .ok t) :
    d'.resolve sharedSets' = .ok t := by
  obtain ⟨htname, hsets, hw⟩ := resolve_eq_ok.1 ht
  rw [hname] at htname hsets
  exact resolve_eq_ok.2 ⟨htname, resolveSets_of_contents h hc hsets, hw⟩

end TableDecl

/-- A declaration that is inserted into one of the own sets of a table: what stands around the set
in the table, and around the declaration in the set. -/
structure Insertion where
  table : String
  front : List SetContents
  frequency : Frequency
  before : List (String × ResourceKind × Nat × Frequency)
  name : String
  kind : ResourceKind
  length : Nat
  /-- The frequency that the declaration itself names. -/
  declared : Frequency
  after : List (String × ResourceKind × Nat × Frequency)
  back : List SetContents

namespace Insertion

def without (i : Insertion) : List SetContents :=
  i.front ++ .listed i.frequency (i.before ++ i.after) :: i.back

def inserted (i : Insertion) : List SetContents :=
  i.front ++
    .listed i.frequency (i.before ++ (i.name, i.kind, i.length, i.declared) :: i.after) :: i.back

theorem getElem?_inserted (i : Insertion) {k : Nat} (h : k ≠ i.front.length) :
    i.inserted[k]? = i.without[k]? := by
  rw [inserted, without]
  rcases Nat.lt_or_gt_of_ne h with hlt | hgt
  · rw [getElem?_append_left hlt, getElem?_append_left hlt]
  · have hle : i.front.length ≤ k := Nat.le_of_lt hgt
    rw [getElem?_append_right hle, getElem?_append_right hle]
    obtain ⟨m, hm⟩ : ∃ m, k - i.front.length = m + 1 := ⟨k - i.front.length - 1, by omega⟩
    rw [hm, getElem?_cons_succ, getElem?_cons_succ]

theorem getElem?_without_front (i : Insertion) :
    i.without[i.front.length]? = some (.listed i.frequency (i.before ++ i.after)) := by
  simp [without]

theorem getElem?_inserted_front (i : Insertion) :
    i.inserted[i.front.length]? = some (.listed i.frequency
      (i.before ++ (i.name, i.kind, i.length, i.declared) :: i.after)) := by
  simp [inserted]

/-- What stands between marks can be replaced without a change to what stands around it. -/
theorem exists_intercalate_around (sep : List Char) (front back : List (List Char)) :
    ∃ before after, ∀ x, sep.intercalate (front ++ x :: back) = before ++ (x ++ after) := by
  induction front with
  | nil =>
    cases back with
    | nil => exact ⟨[], [], fun x => by simp⟩
    | cons b back => exact ⟨[], sep ++ sep.intercalate (b :: back), fun x => by simp⟩
  | cons a front ih =>
    obtain ⟨before, after, h⟩ := ih
    refine ⟨a ++ sep ++ before, after, fun x => ?_⟩
    rw [cons_append, intercalate_cons_of_ne_nil (by simp), h, append_assoc (a ++ sep)]

/-- One more declaration shows in the signature, whatever the names are. -/
theorem signature_ne (i : Insertion) {d d' : TableDecl} (hd : d.contents = i.without)
    (hd' : d'.contents = i.inserted) : d.signature ≠ d'.signature := by
  intro he
  rw [← String.toList_inj, TableDecl.toList_signature, TableDecl.toList_signature, hd, hd',
    without, inserted, map_append, map_append, map_cons, map_cons] at he
  obtain ⟨before, after, haround⟩ := exists_intercalate_around ['|']
    (i.front.map (·.signature.toList)) (i.back.map (·.signature.toList))
  rw [haround, haround] at he
  have hset := append_cancel_right (append_cancel_left he)
  rw [SetContents.toList_signature_listed, SetContents.toList_signature_listed] at hset
  have hdecls := (List.cons.inj (append_cancel_left hset)).2
  simp only [map_append, map_cons, flatMap_append, flatMap_cons] at hdecls
  have hlength := congrArg List.length (append_cancel_left hdecls)
  simp only [length_append, length_singleton] at hlength
  omega

/-- A declaration of the table before and after the insertion is made in it. -/
structure MadeIn (i : Insertion) (d d' : TableDecl) : Prop where
  name : d.name = i.table
  name_eq : d'.name = d.name
  without : d.contents = i.without
  inserted : d'.contents = i.inserted

/-- Two programs that differ in nothing but the insertion, as far as their tables go: it is made in
at least one declaration of its table, and whatever else they declare has the same contents in
both. -/
structure Between (i : Insertion) (p q : Program) : Prop where
  sharedSets : p.sharedDecls.map SharedSet.contents = q.sharedDecls.map SharedSet.contents
  tables : List.Forall₂
    (fun d d' => d.name = d'.name ∧ d.contents = d'.contents ∨ i.MadeIn d d')
    p.tableDecls q.tableDecls
  made : ∃ (k : Nat) (d d' : TableDecl), p.tableDecls[k]? = some d ∧ q.tableDecls[k]? = some d' ∧
    i.MadeIn d d'

section Programs
variable {i : Insertion} {p q : Program} {ts us : ResourceTables} {t t' : ResourceTable}

theorem find?_of_forall₂ {α : Type} {name : α → String} {R : α → α → Prop} {l l' : List α}
    (h : List.Forall₂ R l l') (hname : ∀ a b, R a b → name a = name b) (n : String) :
    l.find? (name · == n) = none ∧ l'.find? (name · == n) = none ∨
      ∃ a b, l.find? (name · == n) = some a ∧ l'.find? (name · == n) = some b ∧ R a b := by
  induction h with
  | nil => exact .inl ⟨rfl, rfl⟩
  | @cons a b l l' hab _ ih =>
    rw [find?_cons, find?_cons, ← hname a b hab]
    by_cases hn : (name a == n) = true
    · simp only [hn]
      exact .inr ⟨a, b, rfl, rfl, hab⟩
    · simp only [Bool.not_eq_true] at hn
      simp only [hn]
      exact ih

theorem Between.find? (h : i.Between p q) (n : String) :
    p.tableDecls.find? (·.name == n) = none ∧ q.tableDecls.find? (·.name == n) = none ∨
      ∃ d d', p.tableDecls.find? (·.name == n) = some d ∧
        q.tableDecls.find? (·.name == n) = some d' ∧
        (d.name = d'.name ∧ d.contents = d'.contents ∨ i.MadeIn d d') := by
  refine find?_of_forall₂ h.tables ?_ n
  rintro d d' (hd | hd)
  · exact hd.1
  · exact hd.name_eq.symm

theorem Between.get?_of_ne (h : i.Between p q) (hp : p.resolveTables = .ok ts)
    (hq : q.resolveTables = .ok us) {n : String} (hn : n ≠ i.table) : us.get? n = ts.get? n := by
  apply Option.ext
  intro t
  rw [Program.get?_eq_some hp, Program.get?_eq_some hq]
  obtain ⟨hnone, hnone'⟩ | ⟨d, d', hd, hd', hsame | hmade⟩ := h.find? n
  · rw [hnone, hnone']
    simp
  · rw [hd, hd']
    constructor
    · rintro ⟨e, he, ht⟩
      cases he
      exact ⟨d, rfl,
        TableDecl.resolve_of_contents h.sharedSets.symm hsame.1.symm hsame.2.symm ht⟩
    · rintro ⟨e, he, ht⟩
      cases he
      exact ⟨d', rfl, TableDecl.resolve_of_contents h.sharedSets hsame.1 hsame.2 ht⟩
  · have hdn : d.name = n := by simpa using find?_some hd
    exact absurd (hdn.symm.trans hmade.name) hn

/-- Programs that can be resolved have the insertion in the declaration of the table that counts. -/
theorem Between.exists_decls (h : i.Between p q) (hp : p.resolveTables = .ok ts)
    (hq : q.resolveTables = .ok us) (ht : ts.get? i.table = some t)
    (ht' : us.get? i.table = some t') :
    ∃ d d' : TableDecl, i.MadeIn d d' ∧
      d.resolve p.sharedDecls = .ok t ∧ d'.resolve q.sharedDecls = .ok t' := by
  obtain ⟨d, hd, hresolve⟩ := (Program.get?_eq_some hp).1 ht
  obtain ⟨d', hd', hresolve'⟩ := (Program.get?_eq_some hq).1 ht'
  refine ⟨d, d', ?_, hresolve, hresolve'⟩
  obtain ⟨hnone, -⟩ | ⟨_, _, h₁, h₂, hpair⟩ := h.find? i.table
  · cases hnone.symm.trans hd
  cases h₁.symm.trans hd
  cases h₂.symm.trans hd'
  rcases hpair with ⟨-, hsame⟩ | hmade
  · -- In each program the declaration that counts has the signature of the one in which the
    -- insertion is made, so the two of these would have the same signature.
    obtain ⟨k, e, e', he, he', hmade⟩ := h.made
    have hname : d.name = i.table := by simpa using find?_some hd
    have hname' : d'.name = i.table := by simpa using find?_some hd'
    have hs := (Program.resolveTables_isOk_iff.1 ⟨ts, hp⟩).tables d (mem_of_find?_eq_some hd) e
      (mem_of_getElem? he) (hname.trans hmade.name.symm)
    have hs' := (Program.resolveTables_isOk_iff.1 ⟨us, hq⟩).tables d' (mem_of_find?_eq_some hd')
      e' (mem_of_getElem? he') (hname'.trans (hmade.name_eq.trans hmade.name).symm)
    refine absurd ?_ (i.signature_ne hmade.without hmade.inserted)
    rw [← hs, ← hs', TableDecl.signature, hsame, TableDecl.signature]
  · exact hmade

/-- Between two programs that resolve a table, one of them with a declaration inserted into one of
the table's own sets, all other tables and all other sets of the table are the same. Of the set,
what stands before the declaration is the same, what stands after it has its index moved on by the
declaration's length, and the set counts as many indices more. -/
theorem resolveTables_of_insertion (h : i.Between p q) (hp : p.resolveTables = .ok ts)
    (hq : q.resolveTables = .ok us) (ht : ts.get? i.table = some t)
    (ht' : us.get? i.table = some t') :
    (∀ n, n ≠ i.table → us.get? n = ts.get? n) ∧
    t'.sets.length = t.sets.length ∧
    (∀ k, k ≠ i.front.length → t'.sets[k]? = t.sets[k]?) ∧
    ∃ s s', t.sets[i.front.length]? = some s ∧ t'.sets[i.front.length]? = some s' ∧
      s'.frequency = s.frequency ∧ s'.shared = s.shared ∧ s'.count = s.count + i.length ∧
      i.before.length ≤ s.resources.length ∧
      ∃ index, s'.resources = s.resources.take i.before.length ++
        ⟨i.name, i.kind, index, i.length⟩ ::
          (s.resources.drop i.before.length).map fun r =>
            { r with index := r.index + i.length } := by
  obtain ⟨d, d', ⟨-, hname, hwithout, hinserted⟩, hd, hd'⟩ := h.exists_decls hp hq ht ht'
  refine ⟨fun n hn => h.get?_of_ne hp hq hn, ?_, fun k hk => ?_, ?_⟩
  · rw [TableDecl.length_of_resolve hd, TableDecl.length_of_resolve hd', hwithout, hinserted]
    simp [without, inserted]
  · have hsame : d.contents[k]? = d'.contents[k]? := by
      rw [hwithout, hinserted, i.getElem?_inserted hk]
    apply Option.ext
    intro set
    exact ⟨TableDecl.getElem?_of_contents h.sharedSets.symm hname hd' hd hsame.symm,
      TableDecl.getElem?_of_contents h.sharedSets hname.symm hd hd' hsame⟩
  · obtain ⟨s, hs, hf, hown, hsig, hc⟩ :=
      TableDecl.exists_of_listed hd (hwithout ▸ i.getElem?_without_front)
    obtain ⟨s', hs', hf', hown', hsig', hc'⟩ :=
      TableDecl.exists_of_listed hd' (hinserted ▸ i.getElem?_inserted_front)
    rw [map_append] at hsig
    rw [map_append, map_cons] at hsig'
    obtain ⟨hcount, index, hresources⟩ := hc.eq_of_insert hc' hsig hsig'
    rw [length_map] at hresources
    have hlength : i.before.length ≤ s.resources.length := by
      have := congrArg List.length hsig
      simp only [length_map, length_append] at this
      omega
    exact ⟨s, s', hs, hs', hf'.trans hf.symm, hown'.trans hown.symm, hcount, hlength, index,
      hresources⟩

end Programs

section Example

/-- A table of four textures, what is inserted after them, a sampler and a shared set. -/
def sceneTable (line : Nat) (inserted : List ResourceDecl) : TableDecl :=
  let loc : Loc := ⟨"scene.fsl", line⟩
  ⟨"Scene",
    [.own ⟨.persistent, [⟨"maps", .texture .tex2D .void, 4, .persistent, loc⟩] ++ inserted ++
    [⟨"smooth", .sampler false, 1, .persistent, loc⟩], loc⟩, .shared "Frame" loc], loc⟩

/-- A program that declares the table twice, and another table between. -/
def sceneProgram (line : Nat) (inserted : List ResourceDecl) : Program :=
  let loc : Loc := ⟨"scene.fsl", line⟩
  ⟨[.sharedSet ⟨"Frame", ⟨.perFrame, [⟨"camera", .constantBuffer .void, 1, .perFrame, loc⟩], loc⟩⟩,
    .table (sceneTable line inserted), .table ⟨"Plain", [.shared "Frame" loc], loc⟩,
    .table (sceneTable (line + 9) inserted)]⟩

def threeBuffers : Insertion where
  table := "Scene"
  front := []
  frequency := .persistent
  before := [("maps", .texture .tex2D .void, 4, .persistent)]
  name := "lists"
  kind := .buffer .void
  length := 3
  declared := .persistent
  after := [("smooth", .sampler false, 1, .persistent)]
  back := [.included "Frame"]

/-- The insertion is made in both declarations of the table, and everything has moved to other
lines. -/
theorem between_sceneProgram : threeBuffers.Between (sceneProgram 1 [])
    (sceneProgram 2 [⟨"lists", .buffer .void, 3, .persistent, ⟨"scene.fsl", 7⟩⟩]) where
  sharedSets := rfl
  tables := .cons (.inr ⟨rfl, rfl, rfl, rfl⟩)
    (.cons (.inl ⟨rfl, rfl⟩) (.cons (.inr ⟨rfl, rfl, rfl, rfl⟩) .nil))
  made := ⟨0, _, _, rfl, rfl, rfl, rfl, rfl, rfl⟩

theorem resolveTables_of_insertion_sceneProgram :
    ∃ ts us t t' s s', (sceneProgram 1 []).resolveTables = .ok ts ∧
      (sceneProgram 2 [⟨"lists", .buffer .void, 3, .persistent, ⟨"scene.fsl", 7⟩⟩]).resolveTables =
        .ok us ∧
      ts.get? "Scene" = some t ∧ us.get? "Scene" = some t' ∧ us.get? "Plain" = ts.get? "Plain" ∧
      t'.sets[1]? = t.sets[1]? ∧ t.sets[0]? = some s ∧ t'.sets[0]? = some s' ∧
      s.resources = [⟨"maps", .texture .tex2D .void, 0, 4⟩, ⟨"smooth", .sampler false, 4, 1⟩] ∧
      s'.resources.drop 2 = [⟨"smooth", .sampler false, 7, 1⟩] ∧ s'.count = s.count + 3 := by
  obtain ⟨ts, hts⟩ := exists_ok (x := (sceneProgram 1 []).resolveTables) (by decide +kernel)
  obtain ⟨us, hus⟩ := exists_ok (x := (sceneProgram 2
    [⟨"lists", .buffer .void, 3, .persistent, ⟨"scene.fsl", 7⟩⟩]).resolveTables) (by decide +kernel)
  obtain ⟨t, ht, hfirst⟩ : ∃ t, ts.get? "Scene" = some t ∧ ∀ s, t.sets[0]? = some s →
      s.resources = [⟨"maps", .texture .tex2D .void, 0, 4⟩, ⟨"smooth", .sampler false, 4, 1⟩] := by
    refine ⟨_, (Program.get?_eq_some hts).2 ⟨_, rfl, rfl⟩, fun s hs => ?_⟩
    cases hs
    rfl
  obtain ⟨t', ht'⟩ : ∃ t', us.get? "Scene" = some t' :=
    ⟨_, (Program.get?_eq_some hus).2 ⟨_, rfl, rfl⟩⟩
  obtain ⟨hother, -, hsets, s, s', hs, hs', -, -, hcount, -, index, hresources⟩ :=
    resolveTables_of_insertion between_sceneProgram hts hus ht ht'
  refine ⟨ts, us, t, t', s, s', hts, hus, ht, ht', hother "Plain" (by decide), hsets 1 (by decide),
    hs, hs', hfirst s hs, ?_, hcount⟩
  rw [hresources, hfirst s hs]
  rfl

end Example
end Insertion
end ShaderDialect
