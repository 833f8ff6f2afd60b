import ShaderDialect.Proofs.ShaderUnit.Resources

/-! The rules that the code of a unit has to follow, whichever part of it is written: globals,
helpers and the entry point. The checks of functions say exactly whether a body follows them. They
are made of the helpers and of the entry point, and of no global. -/
namespace ShaderDialect

open List Success

namespace ValueType

/-- A name that starts otherwise than the names of the scalars is not built in. -/
theorem builtin?_of_isPrefixOf {name : String} (h : "Wave".toList.isPrefixOf name.toList = true) :
    builtin? name = none := by
  obtain ⟨cs, hcs⟩ := isPrefixOf_iff_prefix.1 h
  have hne : ∀ other : String, other.toList.head? ≠ some 'W' → name ≠ other := by
    rintro other hother rfl
    simp [← hcs] at hother
  simp [builtin?, hne "void" (by decide), hne "atomic_uint" (by decide),
    hne "atomic_int" (by decide), scalarNames, strip?, ← hcs]

end ValueType

namespace Fragment

/-- A call of a function with some arguments stands in a body, be it in an argument. -/
def Calls (body : List Fragment) (name : String) (args : List (List Fragment)) : Prop :=
  ∃ loc, .call name args loc ∈ nestedList body

/-- Matrices are constructed from one argument at most. -/
def MatricesPlain (body : List Fragment) : Prop :=
  ∀ name args, Calls body name args → ∀ scalar columns rows,
    ValueType.builtin? name = some (.matrix scalar columns rows) → args.length ≤ 1

/-- Operations on waves are called only with their feature. -/
def WavesEnabled (features : FeatureSet) (body : List Fragment) : Prop :=
  ∀ name args, Calls body name args → "Wave".toList.isPrefixOf name.toList = true →
    features.contains .subgroupOps = true

/-- The resources of other tables are not named, unless the own table has them as well. -/
def NamesOwn (own : Option ResourceTable) (others : List ResourceTable) (body : List Fragment) :
    Prop :=
  ∀ t ∈ others, ∀ r ∈ t.names, (∀ t' ∈ own, r ∉ t'.names) → ¬ Names r body

end Fragment

namespace Function
variable {f : Function} {features : FeatureSet} {own : Option ResourceTable}
  {others : List ResourceTable}

theorem callFault?_eq_none {name : String} {args : List (List Fragment)} {loc : Loc} :
    callFault? features (.call name args loc) = none ↔
      (∀ scalar columns rows, ValueType.builtin? name = some (.matrix scalar columns rows) →
        args.length ≤ 1) ∧
      ("Wave".toList.isPrefixOf name.toList = true → features.contains .subgroupOps = true) := by
  by_cases hwave : "Wave".toList.isPrefixOf name.toList = true
  · have hb := ValueType.builtin?_of_isPrefixOf hwave
    simp [callFault?, hb]
  · have hnone : callFault? features (.call name args loc) = none ↔
        ∀ scalar columns rows, ValueType.builtin? name = some (.matrix scalar columns rows) →
          args.length ≤ 1 := by
      simp only [callFault?, hwave]
      split
      · next hb => simp [hb]
      · next hb => simpa using fun scalar columns rows h => absurd h (hb scalar columns rows)
    exact hnone.trans (and_iff_left fun h => absurd h hwave).symm

theorem callsFault?_eq_none : f.callsFault? features = none ↔
    Fragment.MatricesPlain f.body ∧ Fragment.WavesEnabled features f.body := by
  rw [callsFault?, findSome?_eq_none_iff]
  constructor
  · intro h
    constructor
    · rintro name args ⟨loc, hcall⟩
      exact (callFault?_eq_none.1 (h _ hcall)).1
    · rintro name args ⟨loc, hcall⟩
      exact (callFault?_eq_none.1 (h _ hcall)).2
  · rintro ⟨hmatrices, hwaves⟩ fragment hmem
    cases fragment with
    | call name args loc =>
      exact callFault?_eq_none.2 ⟨hmatrices name args ⟨loc, hmem⟩, hwaves name args ⟨loc, hmem⟩⟩
    | _ => rfl

theorem foreignFault?_eq_none :
    f.foreignFault? own others = none ↔ Fragment.NamesOwn own others f.body := by
  constructor
  · intro h t ht r hr hown hname
    exact foreignFault?_ne_none ht hr hown hname h
  · intro h
    rw [foreignFault?, findSome?_eq_none_iff]
    rintro ⟨r, loc⟩ hr
    dsimp only
    have hname : Fragment.Names r f.body := Fragment.names_iff.2 (mem_map_of_mem hr)
    split
    · rfl
    · next hown =>
      rw [Option.map_eq_none_iff, find?_eq_none]
      intro t ht hmem
      refine h t (mem_reverse.1 ht) r (of_decide_eq_true hmem) ?_ hname
      rintro t' ht' hr'
      exact hown ((Option.any_eq_true _ _).2 ⟨t', ht', decide_eq_true hr'⟩)

end Function

/-- A global as the checks of functions would see it. -/
def Global.asFunction (g : Global) : Function := ⟨"", .void, [], g.body, g.loc⟩

namespace ShaderUnit
variable {p : Program} {tables : ResourceTables} {signatures : RootSignatures} {o : Output}
  {target : Target} {s : Selection} {u : ShaderUnit}

def code (u : ShaderUnit) : List (List Fragment) :=
  u.globals.map Global.body ++ u.functions.map Function.body

/-- What a body has to observe to be written with the rest of a unit. -/
structure Validated (tables : ResourceTables) (s : Selection) (u : ShaderUnit)
    (body : List Fragment) : Prop where
  matrices : Fragment.MatricesPlain body
  waves : Fragment.WavesEnabled u.features body
  resources : Fragment.NamesOwn u.table (otherTables tables s u.table) body
  /-- A call of a function is one of a function that is written. -/
  calls : ∀ f ∈ s.functions, ∀ args, Fragment.Calls body f.name args →
    f ∈ u.helpers.map UnitFunction.function

/-- What the checks have to say of a function for its body to be valid. -/
structure Checked (tables : ResourceTables) (s : Selection) (u : ShaderUnit) (f : Function) :
    Prop where
  calls : f.callsFault? u.features = none
  foreign : f.foreignFault? u.table (otherTables tables s u.table) = none
  callees : f.callees s.functions ⊆ u.helpers.map UnitFunction.function

theorem validated_iff_checked (hs : Selection.ofOutput p o target = .ok s) {f : Function} :
    Validated tables s u f.body ↔ Checked tables s u f := by
  have hfs := Selection.nodup_functions hs
  constructor
  · intro h
    refine ⟨Function.callsFault?_eq_none.2 ⟨h.matrices, h.waves⟩,
      Function.foreignFault?_eq_none.2 h.resources, fun g hg => ?_⟩
    obtain ⟨hmem, args, loc, hcall⟩ := (Function.mem_callees hfs).1 hg
    exact h.calls g hmem args ⟨loc, hcall⟩
  · intro h
    obtain ⟨hmatrices, hwaves⟩ := Function.callsFault?_eq_none.1 h.calls
    refine ⟨hmatrices, hwaves, Function.foreignFault?_eq_none.1 h.foreign, ?_⟩
    rintro g hg args ⟨loc, hcall⟩
    exact h.callees ((Function.mem_callees hfs).2 ⟨hg, args, loc, hcall⟩)

theorem callsFault?_of_ofOutput (hs : Selection.ofOutput p o target = .ok s)
    (hu : ofOutput p tables signatures o target = .ok u) :
    ∀ f ∈ u.functions, f.callsFault? u.features = none := by
  have hfs := Selection.nodup_functions hs
  simp only [ofOutput, hs, bind_eq_ok, pure_eq_ok, Except.ok.injEq, exists_eq_left'] at hu
  obtain ⟨e, -, ⟨⟩, -, own, -, interface, -, ⟨⟩, -, found, hfound, ⟨⟩, -, ⟨⟩, hcalls, helpers,
    hhelpers, ⟨⟩, -, rfl⟩ := hu
  have hordered := (Helpers.ordered_reached hfs hfound).1
  intro f hf
  rw [functions, (foldlM_addHelper hfs hordered hhelpers).1] at hf
  exact findSome?_eq_none_iff.1 (failIf_eq_ok.1 hcalls) f hf

theorem checked_functions (hs : Selection.ofOutput p o target = .ok s)
    (hu : ofOutput p tables signatures o target = .ok u) :
    ∀ f ∈ u.functions, Checked tables s u f := by
  intro f hf
  have hfs := Selection.nodup_functions hs
  obtain ⟨e, found, h⟩ := collected_of_ofOutput hs hu
  obtain ⟨hordered, hcalls⟩ := Helpers.ordered_reached hfs h.reached
  have hfound := h.function_helpers hs
  refine ⟨callsFault?_of_ofOutput hs hu f hf, ?_, fun g hg => ?_⟩
  · rw [functions, hfound, h.entry, mem_append, mem_singleton] at hf
    rcases hf with hf | rfl
    · exact (foldlM_addHelper hfs hordered h.helpers).2.2 f hf
    · exact h.foreign
  · rw [functions, hfound, h.entry, mem_append, mem_singleton] at hf
    rw [hfound]
    have hcall := (Function.mem_callees hfs).1 hg
    rcases hf with hf | rfl
    · obtain ⟨front, back, hsplit⟩ := append_of_mem hf
      rw [hsplit]
      exact mem_append_left _ (hordered.closed front f back hsplit g hcall)
    · exact hcalls g hcall

/-- The functions of a unit observe the rules. All that is written observes them exactly if the
checks that functions have passed find nothing wrong with the globals either. -/
theorem validated_of_ofOutput (hs : Selection.ofOutput p o target = .ok s)
    (hu : ofOutput p tables signatures o target = .ok u) :
    (∀ f ∈ u.functions, Validated tables s u f.body) ∧
      ((∀ body ∈ u.code, Validated tables s u body) ↔
        ∀ g ∈ u.globals, Checked tables s u g.asFunction) := by
  have hfunctions : ∀ f ∈ u.functions, Validated tables s u f.body := fun f hf =>
    (validated_iff_checked hs).2 (checked_functions hs hu f hf)
  refine ⟨hfunctions, ?_⟩
  simp only [code, forall_mem_append, forall_mem_map]
  rw [and_iff_left hfunctions]
  exact forall₂_congr fun g _ => validated_iff_checked (f := g.asFunction) hs

def turnRow : List Fragment := [.token ⟨.word "row", tintLoc⟩]

def turnGlobal (rows : List (List Fragment)) : Global :=
  ⟨[.token ⟨.word "static", tintLoc⟩, .token ⟨.word "float2x2", tintLoc⟩,
    .token ⟨.word "turn", tintLoc⟩, .token ⟨.op "=", tintLoc⟩, .call "float2x2" rows tintLoc],
    tintLoc⟩

def turnProgram (rows : List (List Fragment)) : Program :=
  ⟨(tintProgram "smooth").items ++ [.global (turnGlobal rows)]⟩

def turnSelection (rows : List (List Fragment)) : Selection :=
  ⟨[], [tint "smooth", shade], [turnGlobal rows], [shadeEntry], ["Lit", "Lost", "Sky"]⟩

theorem ofOutput_turnProgram : ∀ rows ∈ [[turnRow], [turnRow, turnRow]],
    Selection.ofOutput (turnProgram rows) tintOutput .metal = .ok (turnSelection rows) ∧
      ∃ u, ofOutput (turnProgram rows) tintTables .standard tintOutput .metal = .ok u ∧
        u.globals = [turnGlobal rows] ∧ u.features = .empty ∧ u.table = some Program.litTable := by
  simp only [forall_mem_cons, not_mem_nil, false_implies, implies_true, and_true]
  exact ⟨⟨rfl, _, rfl, rfl, rfl, rfl⟩, rfl, _, rfl, rfl, rfl, rfl⟩

/-- Whatever the rows of the global are, there is a unit, but with two rows it is not valid. -/
theorem validated_of_ofOutput_turnProgram :
    (∃ u, ofOutput (turnProgram [turnRow]) tintTables .standard tintOutput .metal = .ok u ∧
      ∀ body ∈ u.code, Validated tintTables (turnSelection [turnRow]) u body) ∧
    ∃ u, ofOutput (turnProgram [turnRow, turnRow]) tintTables .standard tintOutput .metal = .ok u ∧
      (∀ f ∈ u.functions, Validated tintTables (turnSelection [turnRow, turnRow]) u f.body) ∧
      ¬ ∀ body ∈ u.code, Validated tintTables (turnSelection [turnRow, turnRow]) u body := by
  constructor
  · obtain ⟨hs, u, hu, hglobals, hfeatures, htable⟩ := ofOutput_turnProgram [turnRow] (by simp)
    refine ⟨u, hu, (validated_of_ofOutput hs hu).2.2 ?_⟩
    rw [hglobals, forall_mem_singleton]
    refine ⟨?_, ?_, ?_⟩
    · rw [hfeatures]
      rfl
    · rw [htable]
      rfl
    · exact nil_subset _
  · obtain ⟨hs, u, hu, hglobals, hfeatures, -⟩ := ofOutput_turnProgram [turnRow, turnRow] (by simp)
    refine ⟨u, hu, (validated_of_ofOutput hs hu).1, ?_⟩
    rw [(validated_of_ofOutput hs hu).2, hglobals, forall_mem_singleton]
    intro h
    have hnone := h.calls
    rw [hfeatures] at hnone
    exact Option.some_ne_none _ hnone

end ShaderUnit
end ShaderDialect
