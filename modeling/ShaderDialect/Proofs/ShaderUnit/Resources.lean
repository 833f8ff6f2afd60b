import ShaderDialect.Proofs.ShaderUnit.Reach
import ShaderDialect.ShaderUnit

/-! The resources that functions use. What one pass over the helpers of a unit collects, callees
first, is what the bodies of all reached functions name; no body names a resource of a table that
has not been selected. -/
namespace ShaderDialect

open List Success

namespace Fragment
variable {fs : List Fragment} {name : String} {x : String × Loc} {dot : Bool}

def parts : Fragment → List (List Fragment)
  | call _ args _ | ret args _ => args
  | branch _ yes no _ => [yes, no]
  | token _ | initMain _ => []

/-- Whether fragments end with a dot, or what stands before them if there are none. -/
def dotAfter (dot : Bool) (fs : List Fragment) : Bool :=
  (fs.getLast?.map (·.isDelimiter .dot)).getD dot

/-- A body names a value: the word stands in it, be it in an argument, and not after a dot. -/
inductive Names (name : String) : List Fragment → Prop
  | word (before after : List Fragment) (loc : Loc) (plain : dotAfter false before = false) :
      Names name (before ++ .token ⟨.word name, loc⟩ :: after)
  | inside {fs part : List Fragment} {f : Fragment} (hf : f ∈ fs) (hpart : part ∈ f.parts)
      (hname : Names name part) : Names name fs

theorem dotAfter_cons (f : Fragment) (fs : List Fragment) :
    dotAfter dot (f :: fs) = dotAfter (f.isDelimiter .dot) fs := by
  rw [dotAfter, getLast?_cons, dotAfter]
  cases fs.getLast? <;> rfl

theorem mem_valuesArgs {args : List (List Fragment)} :
    x ∈ valuesArgs args ↔ ∃ arg ∈ args, x ∈ valuesList false arg := by
  induction args with
  | nil => simp [valuesArgs]
  | cons arg args ih => simp [valuesArgs, ih]

variable {f : Fragment}

theorem mem_values : x ∈ f.values dot ↔
    (dot = false ∧ f = .token ⟨.word x.1, x.2⟩) ∨ ∃ part ∈ f.parts, x ∈ valuesList false part := by
  cases f with
  | token t =>
    obtain ⟨token, loc⟩ := t
    obtain ⟨name, place⟩ := x
    cases token <;> cases dot <;> simp [values, parts, eq_comm]
  | call | ret => simp [values, parts, mem_valuesArgs]
  | branch => simp [values, parts]
  | initMain => simp [values, parts]

theorem mem_valuesList : x ∈ valuesList dot fs ↔
    (∃ before after, fs = before ++ .token ⟨.word x.1, x.2⟩ :: after ∧
      dotAfter dot before = false) ∨
    ∃ f ∈ fs, ∃ part ∈ f.parts, x ∈ valuesList false part := by
  induction fs generalizing dot with
  | nil => simp [valuesList]
  | cons f fs ih =>
    rw [valuesList, mem_append, mem_values, ih]
    constructor
    · rintro ((⟨rfl, rfl⟩ | hpart) | (⟨before, after, rfl, hdot⟩ | ⟨g, hg, hpart⟩))
      · exact .inl ⟨[], fs, rfl, rfl⟩
      · exact .inr ⟨f, mem_cons_self, hpart⟩
      · exact .inl ⟨f :: before, after, rfl, (dotAfter_cons f before).trans hdot⟩
      · exact .inr ⟨g, mem_cons_of_mem f hg, hpart⟩
    · rintro (⟨before, after, hsplit, hdot⟩ | ⟨g, hg, hpart⟩)
      · cases before with
        | nil =>
          cases hsplit
          exact .inl (.inl ⟨hdot, rfl⟩)
        | cons b before =>
          cases hsplit
          exact .inr (.inl ⟨before, after, rfl, (dotAfter_cons f before).symm.trans hdot⟩)
      · rcases mem_cons.1 hg with rfl | hg
        · exact .inl (.inr hpart)
        · exact .inr (.inr ⟨g, hg, hpart⟩)

theorem sizeOf_lt_of_mem_parts {part : List Fragment} (h : part ∈ f.parts) :
    sizeOf part < sizeOf f := by
  cases f with
  | call name args loc | ret args loc =>
    have hlt : sizeOf part < sizeOf args := sizeOf_lt_of_mem h
    simp only [call.sizeOf_spec, ret.sizeOf_spec]
    omega
  | branch cond yes no loc =>
    simp only [parts, mem_cons, not_mem_nil, or_false] at h
    rcases h with rfl | rfl <;> simp only [branch.sizeOf_spec] <;> omega
  | token | initMain => cases h

theorem names_of_mem_valuesList (fs : List Fragment) (h : x ∈ valuesList false fs) :
    Names x.1 fs := by
  rcases mem_valuesList.1 h with ⟨before, after, rfl, hdot⟩ | ⟨f, hf, part, hpart, hx⟩
  · exact .word before after x.2 hdot
  · have := sizeOf_lt_of_mem hf
    have := sizeOf_lt_of_mem_parts hpart
    exact .inside hf hpart (names_of_mem_valuesList part hx)
termination_by sizeOf fs

theorem names_iff : Names name fs ↔ name ∈ (valuesList false fs).map Prod.fst := by
  rw [mem_map]
  constructor
  · intro h
    induction h with
    | word before after loc hdot =>
      exact ⟨(name, loc), mem_valuesList.2 (.inl ⟨before, after, rfl, hdot⟩), rfl⟩
    | inside hf hpart _ ih =>
      obtain ⟨x, hx, rfl⟩ := ih
      exact ⟨x, mem_valuesList.2 (.inr ⟨_, hf, _, hpart, hx⟩), rfl⟩
  · rintro ⟨x, hx, rfl⟩
    exact names_of_mem_valuesList fs hx

end Fragment

namespace Function
variable {t : ResourceTable} {fs : List Function} {f : Function} {r : String}
  {own : Option ResourceTable}

/-- The body of a reached function names a resource. -/
def Uses (fs : List Function) (f : Function) (r : String) : Prop :=
  ∃ g, f.Reaches fs g ∧ Fragment.Names r g.body

theorem uses_iff : f.Uses fs r ↔ Fragment.Names r f.body ∨ ∃ h, f.Calls fs h ∧ h.Uses fs r := by
  simp only [Uses, reaches_iff (f := f)]
  constructor
  · rintro ⟨g, rfl | ⟨h, hcall, hreach⟩, hr⟩
    · exact .inl hr
    · exact .inr ⟨h, hcall, g, hreach, hr⟩
  · rintro (hr | ⟨h, hcall, g, hreach, hr⟩)
    · exact ⟨f, .inl rfl, hr⟩
    · exact ⟨g, .inr ⟨h, hcall, hreach⟩, hr⟩

theorem mem_usedResources {used : List (String × List String)} : r ∈ f.usedResources own used ↔
    r ∈ (own.map ResourceTable.names).getD [] ∧
      (Fragment.Names r f.body ∨ ∃ callee ∈ f.calls, r ∈ (used.lookup callee).getD []) := by
  simp only [usedResources, mem_filter, contains_iff_mem, mem_append,
    mem_flatMap, Fragment.names_iff, values]

theorem foreignFault?_ne_none {others : List ResourceTable} (ht : t ∈ others) (hr : r ∈ t.names)
    (hown : ∀ t' ∈ own, r ∉ t'.names) (hname : Fragment.Names r f.body) :
    f.foreignFault? own others ≠ none := by
  obtain ⟨⟨r, loc⟩, hx, rfl⟩ := mem_map.1 (Fragment.names_iff.1 hname)
  have hany : own.any (r ∈ ·.names) = false := by
    cases own with
    | none => rfl
    | some t' => simpa using hown t' rfl
  intro hnone
  have hnone := findSome?_eq_none_iff.1 hnone (r, loc) hx
  simp only [hany, Bool.false_eq_true, if_false, Option.map_eq_none_iff] at hnone
  exact find?_eq_none.1 hnone t (mem_reverse.2 ht) (decide_eq_true hr)

end Function

/-- The resources of a function are those of the table that it uses, in the order of the table. -/
structure UnitFunction.Exact (fs : List Function) (names : List String) (f : UnitFunction) :
    Prop where
  sublist : f.resources.Sublist names
  mem_iff : ∀ r, r ∈ f.resources ↔ r ∈ names ∧ f.function.Uses fs r

namespace ShaderUnit
variable {n : String} {fs : List Function} {f : Function} {own : Option ResourceTable}
  {scope : String} {done done' : List UnitFunction} {others : List ResourceTable}

theorem mem_lookup (hdone : (done.map (·.function.name)).Nodup) {r : String} :
    r ∈ ((done.map fun h => (h.function.name, h.resources)).lookup n).getD [] ↔
      ∃ h ∈ done, h.function.name = n ∧ r ∈ h.resources := by
  by_cases hn : ∃ h ∈ done, h.function.name = n
  · obtain ⟨h, hh, rfl⟩ := hn
    rw [lookup_of_nodup hdone hh, Option.getD_some]
    constructor
    · exact fun hr => ⟨h, hh, rfl, hr⟩
    · rintro ⟨k, hk, hname, hr⟩
      rwa [← inj_on_of_nodup_map hdone hk hh hname]
  · have hnone : (done.map fun h => (h.function.name, h.resources)).lookup n = none := by
      rw [lookup_eq_none_iff]
      intro x hx
      obtain ⟨h, hh, rfl⟩ := mem_map.1 hx
      exact bne_iff_ne.2 fun he => hn ⟨h, hh, he.symm⟩
    rw [hnone]
    simp only [Option.getD_none, not_mem_nil, false_iff]
    rintro ⟨h, hh, hname, -⟩
    exact hn ⟨h, hh, hname⟩

/-- A function whose callees are done gets the resources that it uses. -/
theorem exact_usedResources (hdone : (done.map (·.function.name)).Nodup)
    (hsub : done.map UnitFunction.function ⊆ fs)
    (hcalls : ∀ g, f.Calls fs g → g ∈ done.map UnitFunction.function)
    (hexact : ∀ h ∈ done, h.Exact fs ((own.map ResourceTable.names).getD []))
    (params : List Parameter) :
    UnitFunction.Exact fs ((own.map ResourceTable.names).getD [])
      ⟨f, params, f.usedResources own (done.map fun h => (h.function.name, h.resources))⟩ := by
  refine ⟨filter_sublist, fun r => ?_⟩
  rw [Function.mem_usedResources, Function.uses_iff]
  refine and_congr_right fun hr => or_congr_right ?_
  simp only [mem_lookup hdone]
  constructor
  · rintro ⟨_, hcall, h, hh, rfl, hmem⟩
    exact ⟨h.function, Function.calls_iff.2 ⟨hsub (mem_map_of_mem hh), hcall⟩,
      (((hexact h hh).mem_iff r).1 hmem).2⟩
  · rintro ⟨g, hcall, huses⟩
    obtain ⟨h, hh, rfl⟩ := mem_map.1 (hcalls g hcall)
    exact ⟨_, (Function.calls_iff.1 hcall).2, h, hh, rfl, ((hexact h hh).mem_iff r).2 ⟨hr, huses⟩⟩

theorem failIf_eq_ok {fault : Option ProgramFault} :
    failIf scope fault = .ok () ↔ fault = none := by
  cases fault <;> simp [failIf]

theorem addHelper_eq_ok : addHelper scope own others done f = .ok done' ↔
    f.foreignFault? own others = none ∧ ∃ params, f.helperParams scope = .ok params ∧
      done' = done ++ [⟨f, params,
        f.usedResources own (done.map fun h => (h.function.name, h.resources))⟩] := by
  simp only [addHelper, bind_eq_ok, pure_eq_ok]
  constructor
  · rintro ⟨⟨⟩, hforeign, params, hparams, rfl⟩
    exact ⟨failIf_eq_ok.1 hforeign, params, hparams, rfl⟩
  · rintro ⟨hforeign, params, hparams, rfl⟩
    exact ⟨(), failIf_eq_ok.2 hforeign, params, hparams, rfl⟩

/-- One pass over functions that stand after their callees. -/
theorem foldlM_addHelper {found : List Function} (hfs : (fs.map Function.name).Nodup)
    (hfound : Helpers.Ordered fs found)
    (h : found.foldlM (addHelper scope own others) [] = .ok done) :
    done.map UnitFunction.function = found ∧
      (∀ h ∈ done, h.Exact fs ((own.map ResourceTable.names).getD [])) ∧
      ∀ g ∈ found, g.foreignFault? own others = none := by
  have hrun := foldlM_induction (fun front done => front <+: found →
    done.map UnitFunction.function = front ∧
      (∀ h ∈ done, h.Exact fs ((own.map ResourceTable.names).getD [])) ∧
      ∀ g ∈ front, g.foreignFault? own others = none) h (by simp) ?_
  · exact hrun (prefix_refl found)
  intro front f done done' _ ih hadd hinitial
  obtain ⟨hfront, hexact, hclean⟩ := ih ((prefix_append front [f]).trans hinitial)
  obtain ⟨hforeign, params, -, rfl⟩ := addHelper_eq_ok.1 hadd
  obtain ⟨back, hsplit⟩ := hinitial
  rw [append_assoc, singleton_append] at hsplit
  have hfrontSub : front ⊆ found := by
    rw [← hsplit]
    exact subset_append_left _ _
  have hsub : done.map UnitFunction.function ⊆ fs := by
    rw [hfront]
    exact List.Subset.trans hfrontSub hfound.subset
  have hnodup : (done.map (·.function.name)).Nodup := by
    have hf : front.Nodup := hfound.nodup.sublist (hsplit ▸ sublist_append_left _ _)
    have : (front.map Function.name).Nodup :=
      hf.map_on fun a ha b hb => inj_on_of_nodup_map hfs (hfound.subset (hfrontSub ha))
        (hfound.subset (hfrontSub hb))
    rwa [← hfront, map_map] at this
  refine ⟨by rw [map_append, hfront]; rfl, ?_, ?_⟩
  · rw [forall_mem_append, forall_mem_singleton]
    refine ⟨hexact, exact_usedResources hnodup hsub ?_ hexact params⟩
    rw [hfront]
    exact hfound.closed front f back hsplit.symm
  · rw [forall_mem_append, forall_mem_singleton]
    exact ⟨hclean, hforeign⟩

end ShaderUnit

namespace Selection
variable {p : Program} {o : Output} {target : Target} {s s' : Selection}

theorem nodup_functions_add {scope : String} {defined : String → Bool} {i : Item}
    (hs : (s.functions.map Function.name).Nodup) (h : s.add scope defined i = .ok s') :
    (s'.functions.map Function.name).Nodup := by
  cases i with
  | function f =>
    simp only [add] at h
    split at h
    · cases h
    · next hany =>
      cases h
      rw [map_append, nodup_append]
      refine ⟨hs, nodup_singleton _, fun n hn m hm => ?_⟩
      obtain ⟨g, hg, rfl⟩ := mem_map.1 hn
      obtain rfl := mem_singleton.1 hm
      exact fun he => hany (any_eq_true.2 ⟨g, hg, beq_iff_eq.2 he⟩)
  | struct d =>
    simp only [add] at h
    split at h
    · cases h
    · cases h
      exact hs
  | table d =>
    simp only [add, Except.ok.injEq] at h
    subst h
    split <;> exact hs
  | entry | global | sharedSet | branch | block =>
    cases h
    exact hs

theorem nodup_functions (h : ofOutput p o target = .ok s) :
    (s.functions.map Function.name).Nodup := by
  simp only [ofOutput, bind_eq_ok] at h
  obtain ⟨s₀, hfold, h⟩ := h
  have hnodup := foldlM_induction (fun _ s => (s.functions.map Function.name).Nodup) hfold .nil
    fun _ _ _ _ _ hs hadd => nodup_functions_add hs hadd
  cases hblock : o.block with
  | some items =>
    simp only [hblock, pure_eq_ok] at h
    exact h ▸ hnodup
  | none =>
    simp only [hblock, pure_eq_ok] at h
    exact h ▸ hnodup

end Selection

theorem ResourceTables.wellFormed_of_get {p : Program} {tables : ResourceTables} {n : String}
    {t : ResourceTable}
    (hp : p.resolveTables = .ok tables) (h : tables.get n = .ok t) : t.WellFormed := by
  obtain ⟨d, -, rfl⟩ := Program.resolveTables_eq_ok hp
  rw [get] at h
  split at h
  · next t' hl =>
    cases h
    obtain ⟨front, back, hsplit, -⟩ := lookup_eq_some_iff.1 hl
    have hmem : (n, .ok t) ∈ (ofDeclared d).entries := by rw [hsplit]; simp
    obtain ⟨decl, -, hdecl⟩ := mem_map.1 hmem
    exact (TableDecl.resolve_eq_ok.1 (Prod.mk.inj hdecl).2).2.2
  · cases h
  · cases h

theorem EntryPoint.wellFormed_of_resolvedTable {p : Program} {tables : ResourceTables}
    {e : EntryPoint} {scope : String} {visible : List String} {own : Option ResourceTable}
    {t : ResourceTable}
    (hp : p.resolveTables = .ok tables) (h : e.resolvedTable scope tables visible = .ok own)
    (ht : own = some t) : t.WellFormed := by
  subst ht
  have hget {n : String} (h : (tables.get n).map some = .ok (some t)) : t.WellFormed := by
    obtain ⟨t', hget, ht'⟩ := map_eq_ok.1 h
    cases ht'
    exact ResourceTables.wellFormed_of_get hp hget
  cases he : e.table with
  | some name =>
    simp only [resolvedTable, he] at h
    split at h
    · exact hget h
    · cases h
  | none =>
    simp only [resolvedTable, he] at h
    match visible, h with
    | [], h => cases h
    | [only], h => exact hget h
    | _ :: _ :: _, h => cases h

namespace ShaderUnit
variable {p : Program} {tables : ResourceTables} {signatures : RootSignatures} {o : Output}
  {target : Target} {s : Selection} {e : EntryPoint} {u : ShaderUnit}

/-- The names of the resources that a unit can use, in the order of its table. -/
def resourceNames (u : ShaderUnit) : List String := (u.table.map ResourceTable.names).getD []

/-- The visible tables that have not been selected. -/
def otherTables (tables : ResourceTables) (s : Selection) (own : Option ResourceTable) :
    List ResourceTable :=
  (s.tables.filterMap tables.get?).filter fun t => own.all (·.name != t.name)

/-- How the functions of a unit come from the selection of its output. -/
structure Collected (tables : ResourceTables) (o : Output) (s : Selection) (e : EntryPoint)
    (found : List Function) (u : ShaderUnit) : Prop where
  entryPoint : entryOf o s = .ok e
  table : e.resolvedTable o.name tables s.tables = .ok u.table
  reached : Helpers.reached o.name s.functions e.function = .ok found
  helpers :
    found.foldlM (addHelper o.name u.table (otherTables tables s u.table)) [] = .ok u.helpers
  foreign : e.function.foreignFault? u.table (otherTables tables s u.table) = none
  entry : u.entry = ⟨e.function, e.params, e.function.usedResources u.table
    (u.helpers.map fun h => (h.function.name, h.resources))⟩

theorem collected_of_ofOutput (hs : Selection.ofOutput p o target = .ok s)
    (h : ofOutput p tables signatures o target = .ok u) :
    ∃ e found, Collected tables o s e found u := by
  simp only [ofOutput, hs, bind_eq_ok, pure_eq_ok, Except.ok.injEq, exists_eq_left'] at h
  obtain ⟨e, hentry, ⟨⟩, -, own, htable, interface, -, ⟨⟩, -, found, hfound, ⟨⟩, -, ⟨⟩, -, helpers,
    hhelpers, ⟨⟩, hforeign, rfl⟩ := h
  exact ⟨e, found, hentry, htable, hfound, hhelpers, failIf_eq_ok.1 hforeign, rfl⟩

section
variable {found : List Function} (hs : Selection.ofOutput p o target = .ok s)
  (h : Collected tables o s e found u)
include hs h

theorem Collected.ordered : Helpers.Ordered s.functions found :=
  (Helpers.ordered_reached (Selection.nodup_functions hs) h.reached).1

theorem Collected.function_helpers : u.helpers.map UnitFunction.function = found :=
  (foldlM_addHelper (Selection.nodup_functions hs) (h.ordered hs) h.helpers).1

theorem Collected.nodup_helpers : (u.helpers.map (·.function.name)).Nodup := by
  have hnames : (found.map Function.name).Nodup :=
    (h.ordered hs).nodup.map_on fun f hf g hg => inj_on_of_nodup_map
      (Selection.nodup_functions hs) ((h.ordered hs).subset hf) ((h.ordered hs).subset hg)
  rwa [← h.function_helpers hs, map_map] at hnames

theorem Collected.exact {f : UnitFunction} (hf : f ∈ u.entry :: u.helpers) :
    f.Exact s.functions u.resourceNames := by
  have hfs := Selection.nodup_functions hs
  obtain ⟨hfunctions, hexact, -⟩ := foldlM_addHelper hfs (h.ordered hs) h.helpers
  rcases mem_cons.1 hf with rfl | hf
  · rw [h.entry]
    refine exact_usedResources (h.nodup_helpers hs) ?_ ?_ hexact e.params
    · rw [hfunctions]
      exact (h.ordered hs).subset
    · rw [hfunctions]
      exact (Helpers.ordered_reached hfs h.reached).2
  · exact hexact f hf

theorem Collected.foreignFault?_eq_none {g : Function} (hg : e.function.Reaches s.functions g) :
    g.foreignFault? u.table (otherTables tables s u.table) = none := by
  have hfs := Selection.nodup_functions hs
  rcases Helpers.mem_reached hfs h.reached hg with rfl | hg
  · exact h.foreign
  · exact (foldlM_addHelper hfs (h.ordered hs) h.helpers).2.2 g hg

end

/-- Functions take what they name and what the helpers that they call take. -/
structure Closed (u : ShaderUnit) : Prop where
  nodup : (u.helpers.map (·.function.name)).Nodup
  names : ∀ f ∈ u.entry :: u.helpers, ∀ r ∈ u.resourceNames,
    Fragment.Names r f.function.body → r ∈ f.resources
  calls : ∀ f ∈ u.entry :: u.helpers, ∀ h ∈ u.helpers, h.function.name ∈ f.function.calls →
    h.resources ⊆ f.resources

theorem closed_of_ofOutput (h : ofOutput p tables signatures o target = .ok u) : u.Closed := by
  obtain ⟨s, hs⟩ : ∃ s, Selection.ofOutput p o target = .ok s := by
    simp only [ofOutput, bind_eq_ok] at h
    exact ⟨h.choose, h.choose_spec.1⟩
  obtain ⟨e, found, hcollected⟩ := collected_of_ofOutput hs h
  refine ⟨hcollected.nodup_helpers hs, fun f hf r hr hname => ?_, fun f hf k hk hcall r hr => ?_⟩
  · exact ((hcollected.exact hs hf).mem_iff r).2 ⟨hr, Function.uses_iff.2 (.inl hname)⟩
  · obtain ⟨hname, huses⟩ :=
      ((hcollected.exact hs (mem_cons_of_mem _ hk)).mem_iff r).1 hr
    have hmem : k.function ∈ s.functions := (hcollected.ordered hs).subset
      (hcollected.function_helpers hs ▸ mem_map_of_mem hk)
    exact ((hcollected.exact hs hf).mem_iff r).2 ⟨hname, Function.uses_iff.2
      (.inr ⟨k.function, Function.calls_iff.2 ⟨hmem, hcall⟩, huses⟩)⟩

/-- The resources of a function are, in the order of the table and each once, those that the body of
a reached function names. If a reached function names one that only another table has, there is no
unit. -/
theorem resources_of_ofOutput (hp : p.resolveTables = .ok tables)
    (hs : Selection.ofOutput p o target = .ok s) :
    (∀ u, ofOutput p tables signatures o target = .ok u → ∀ f ∈ u.entry :: u.helpers,
      f.resources.Nodup ∧ f.resources.Sublist u.resourceNames ∧
        ∀ r, r ∈ f.resources ↔ r ∈ u.resourceNames ∧
          ∃ g, f.function.Reaches s.functions g ∧ Fragment.Names r g.body) ∧
    ∀ e own, entryOf o s = .ok e → e.resolvedTable o.name tables s.tables = .ok own →
      ∀ g, e.function.Reaches s.functions g → ∀ n ∈ s.tables, ∀ other, tables.get? n = some other →
        (∀ t ∈ own, t.name ≠ other.name) → ∀ r ∈ other.names, (∀ t ∈ own, r ∉ t.names) →
          Fragment.Names r g.body →
            ∃ failure, ofOutput p tables signatures o target = .error failure := by
  refine ⟨fun u hu f hf => ?_, fun e own he hown g hg n hn other hother hne r hr hnot hname => ?_⟩
  · obtain ⟨e, found, h⟩ := collected_of_ofOutput hs hu
    obtain ⟨hsublist, hmem⟩ := h.exact hs hf
    refine ⟨hsublist.nodup ?_, hsublist, hmem⟩
    rw [resourceNames]
    cases htable : u.table with
    | none => exact .nil
    | some t => exact (EntryPoint.wellFormed_of_resolvedTable hp h.table htable).distinct
  · cases hu : ofOutput p tables signatures o target with
    | error failure => exact ⟨failure, rfl⟩
    | ok u =>
      obtain ⟨e', found, h⟩ := collected_of_ofOutput hs hu
      obtain rfl : e = e' := Except.ok.inj (he.symm.trans h.entryPoint)
      obtain rfl : own = u.table := Except.ok.inj (hown.symm.trans h.table)
      have hvisible : other ∈ otherTables tables s u.table := by
        refine mem_filter.2 ⟨mem_filterMap.2 ⟨n, hn, hother⟩, ?_⟩
        cases htable : u.table with
        | none => rfl
        | some t => simpa using hne t htable
      exact absurd (h.foreignFault?_eq_none hs hg)
        (Function.foreignFault?_ne_none hvisible hr hnot hname)

section
variable (name : String)

def tintLoc : Loc := ⟨"tint.fsl", 1⟩

def tint : Function :=
  ⟨"tint", .void, [], [.token ⟨.word name, tintLoc⟩, .token ⟨.delim .semicolon, tintLoc⟩], tintLoc⟩

/-- A helper that calls `tint` in an argument and has `maps` for a member. -/
def shade : Function :=
  ⟨"shade", .void, [], [.call "max" [[.call "tint" [] tintLoc],
    [.token ⟨.word "a", tintLoc⟩, .token ⟨.delim .dot, tintLoc⟩, .token ⟨.word "maps", tintLoc⟩]]
      tintLoc, .token ⟨.delim .semicolon, tintLoc⟩], tintLoc⟩

/-- An entry point that calls `shade` and names `camera`. -/
def shadeEntry : EntryPoint :=
  ⟨.compute, ⟨"CS_MAIN", .void, [], [.initMain tintLoc, .call "shade" [] tintLoc,
    .token ⟨.delim .semicolon, tintLoc⟩, .token ⟨.word "camera", tintLoc⟩,
    .token ⟨.delim .semicolon, tintLoc⟩, .ret [] tintLoc], tintLoc⟩, none, some "Lit",
    some ⟨8, 8, 1⟩⟩

def domeTable : ResourceTable :=
  ⟨"Sky", [⟨.persistent, none, [⟨"dome", .texture .tex2D .void, 0, 1⟩], 1⟩]⟩

/-- The program `litProgram` with a further table and with functions. -/
def tintProgram : Program :=
  ⟨Program.litProgram.items ++ [.table ⟨"Sky", [.own ⟨.persistent,
      [⟨"dome", .texture .tex2D .void, 1, .persistent, tintLoc⟩], tintLoc⟩], tintLoc⟩,
    .function (tint name), .function shade, .entry shadeEntry]⟩

def tintTables : ResourceTables := ⟨Program.litTables.entries ++ [("Sky", .ok domeTable)]⟩

def tintOutput : Output := ⟨"tint", .compute, .empty, none⟩

def tintSelection : Selection :=
  ⟨[], [tint name, shade], [], [shadeEntry], ["Lit", "Lost", "Sky"]⟩

end

theorem resources_of_ofOutput_tintProgram :
    (∃ u, ofOutput (tintProgram "smooth") tintTables .standard tintOutput .metal = .ok u ∧
      (u.entry :: u.helpers).map (fun f => (f.function.name, f.resources)) =
        [("CS_MAIN", ["smooth", "camera"]), ("tint", ["smooth"]), ("shade", ["smooth"])] ∧
      ∀ f ∈ u.entry :: u.helpers, f.resources.Nodup ∧ f.resources.Sublist u.resourceNames ∧
        ∀ r, r ∈ f.resources ↔ r ∈ u.resourceNames ∧
          ∃ g, f.function.Reaches [tint "smooth", shade] g ∧ Fragment.Names r g.body) ∧
    ∃ failure, ofOutput (tintProgram "dome") tintTables .standard tintOutput .metal =
      .error failure := by
  constructor
  · obtain ⟨u, hu⟩ : ∃ u,
        ofOutput (tintProgram "smooth") tintTables .standard tintOutput .metal = .ok u := ⟨_, rfl⟩
    have hresources : (ofOutput (tintProgram "smooth") tintTables .standard tintOutput .metal).map
        (fun u => (u.entry :: u.helpers).map fun f => (f.function.name, f.resources)) =
      .ok [("CS_MAIN", ["smooth", "camera"]), ("tint", ["smooth"]), ("shade", ["smooth"])] := by rfl
    rw [hu] at hresources
    exact ⟨u, hu, Except.ok.inj hresources,
      (resources_of_ofOutput rfl (s := tintSelection "smooth") rfl).1 u hu⟩
  · have hcall : shadeEntry.function.Calls [tint "dome", shade] shade :=
      ⟨.tail _ (.head _), [], tintLoc, by
        simp [shadeEntry, shade, Fragment.nestedList, Fragment.nested]⟩
    have hcall' : shade.Calls [tint "dome", shade] (tint "dome") :=
      ⟨.head _, [], tintLoc, by
        simp [tint, shade, Fragment.nestedList, Fragment.nested, Fragment.nestedArgs]⟩
    exact (resources_of_ofOutput rfl (s := tintSelection "dome") rfl).2
      shadeEntry (some Program.litTable) rfl rfl (tint "dome") (.tail (.single hcall) hcall') "Sky"
      (by decide) domeTable rfl (by decide) "dome" (by decide) (by decide) (.word [] _ tintLoc rfl)

end ShaderUnit
end ShaderDialect
