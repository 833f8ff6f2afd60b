import ShaderDialect.Proofs.NonUniform.Loops
import ShaderDialect.Proofs.ShaderUnit.Resources

/-! Bodies and the names of resources. How a resource is named makes a difference to the text of a
body only if the body names it as a value or calls a helper that is handed it. -/
namespace ShaderDialect

open Fragment List Success

namespace Fragment
variable (dot : Bool) (fs gs : List Fragment)

theorem valuesList_append :
    valuesList dot (fs ++ gs) = valuesList dot fs ++ valuesList (dotAfter dot fs) gs := by
  induction fs generalizing dot with
  | nil => rfl
  | cons f fs ih => simp [valuesList, ih, dotAfter_cons]

theorem nestedList_append : nestedList (fs ++ gs) = nestedList fs ++ nestedList gs := by
  induction fs with
  | nil => rfl
  | cons f fs ih => simp [nestedList, ih]

theorem dotAfter_append_singleton (f : Fragment) :
    dotAfter dot (fs ++ [f]) = f.isDelimiter .dot := by
  simp [dotAfter]

end Fragment

namespace NonUniformAccess
open Fragment

mutual
theorem index_subset_of_inFragment? {before : List Fragment} (f : Fragment) (dot : Bool)
    {a : NonUniformAccess} (h : inFragment? before f = some a) :
    valuesList false a.index ⊆ f.values dot ∧ nestedList a.index ⊆ f.nested := by
  cases f with
  | token | initMain | branch => simp [inFragment?] at h
  | ret args loc =>
    obtain ⟨hv, hn⟩ := index_subset_of_inArguments? args h
    exact ⟨hv, subset_cons_of_subset _ hn⟩
  | call name args loc =>
    by_cases hname : name = Writer.nonUniformCall
    · simp only [inFragment?, if_pos hname] at h
      split at h
      · next index more =>
        split at h
        · obtain ⟨resource, -, rfl⟩ := Option.map_eq_some_iff.1 h
          exact ⟨subset_append_left _ _,
            subset_cons_of_subset _ (subset_append_left _ _)⟩
        · cases h
      · cases h
    · simp only [inFragment?, if_neg hname] at h
      obtain ⟨hv, hn⟩ := index_subset_of_inArguments? args h
      exact ⟨hv, subset_cons_of_subset _ hn⟩

theorem index_subset_of_inFragments? {before : List Fragment} (fs : List Fragment) (dot : Bool)
    {a : NonUniformAccess} (h : inFragments? before fs = some a) :
    valuesList false a.index ⊆ valuesList dot fs ∧ nestedList a.index ⊆ nestedList fs := by
  cases fs with
  | nil => simp [inFragments?] at h
  | cons f fs =>
    rw [inFragments?] at h
    split at h
    · next b hb =>
      cases h
      obtain ⟨hv, hn⟩ := index_subset_of_inFragment? f dot hb
      exact ⟨subset_append_of_subset_left _ hv, subset_append_of_subset_left _ hn⟩
    · obtain ⟨hv, hn⟩ := index_subset_of_inFragments? fs (f.isDelimiter .dot) h
      exact ⟨subset_append_of_subset_right _ hv, subset_append_of_subset_right _ hn⟩

theorem index_subset_of_inArguments? (args : List (List Fragment)) {a : NonUniformAccess}
    (h : inArguments? args = some a) :
    valuesList false a.index ⊆ valuesArgs args ∧ nestedList a.index ⊆ nestedArgs args := by
  cases args with
  | nil => simp [inArguments?] at h
  | cons arg args =>
    rw [inArguments?] at h
    split at h
    · next b hb =>
      cases h
      obtain ⟨hv, hn⟩ := index_subset_of_inFragments? arg false hb
      exact ⟨subset_append_of_subset_left _ hv, subset_append_of_subset_left _ hn⟩
    · obtain ⟨hv, hn⟩ := index_subset_of_inArguments? args h
      exact ⟨subset_append_of_subset_right _ hv, subset_append_of_subset_right _ hn⟩
end

end NonUniformAccess

namespace Writer
variable (loopIndex : Option String) {w : Writer} {name : Frequency → TableResource → String}
  {args : UnitFunction → List String} {values values' : List (String × Loc)}
  {nested nested' fs gs : List Fragment} {f : Fragment} {p q : Progress}

/-- The writer with other names for resources and other arguments for helpers. -/
def naming (w : Writer) (name : Frequency → TableResource → String)
    (args : UnitFunction → List String) : Writer :=
  { w with language := { w.language with
      resourceName := fun _ => name
      helperArgs := fun _ _ => args } }

/-- For some values and calls, names and arguments are those of the writer. -/
structure Keeps (w : Writer) (name : Frequency → TableResource → String)
    (args : UnitFunction → List String) (values : List (String × Loc)) (nested : List Fragment) :
    Prop where
  names : ∀ v ∈ values, ∀ f r, w.unit.resource? v.1 = some (f, r) →
    name f r = w.language.resourceName w.role f r
  calls : ∀ callee source loc h, .call callee source loc ∈ nested → w.unit.helper? callee = some h →
    args h = w.language.helperArgs w.unit w.role h

theorem Keeps.mono (h : w.Keeps name args values nested) (hv : values' ⊆ values)
    (hn : nested' ⊆ nested) : w.Keeps name args values' nested' :=
  ⟨fun v hmem => h.names v (hv hmem),
    fun callee source loc k hmem => h.calls callee source loc k (hn hmem)⟩

theorem Keeps.left (h : w.Keeps name args (values ++ values') (nested ++ nested')) :
    w.Keeps name args values nested :=
  h.mono (subset_append_left _ _) (subset_append_left _ _)

theorem Keeps.right (h : w.Keeps name args (values ++ values') (nested ++ nested')) :
    w.Keeps name args values' nested' :=
  h.mono (subset_append_right _ _) (subset_append_right _ _)

theorem token_naming {t : Placed} {dot : Bool}
    (h : w.Keeps name args ((Fragment.token t).values dot) []) :
    (w.naming name args).token dot t.token = w.token dot t.token := by
  obtain ⟨token, loc⟩ := t
  cases token with
  | word n =>
    cases dot with
    | true => rfl
    | false =>
      simp only [token, word, Bool.false_eq_true, if_false]
      cases hr : w.unit.resource? n with
      | none => simp only [naming, hr, Language.respell]
      | some x =>
        obtain ⟨f, r⟩ := x
        simp only [naming, hr]
        rw [h.names (n, loc) (by simp [Fragment.values]) f r hr]
  | _ => rfl

theorem call_naming {callee : String} {source : List (List Fragment)} {texts : List String}
    {loc : Loc}
    (h : ∀ k, w.unit.helper? callee = some k → args k = w.language.helperArgs w.unit w.role k) :
    (w.naming name args).call callee source texts loc = w.call callee source texts loc := by
  have hintrinsic (c : CallSite) : (w.naming name args).intrinsic c = w.intrinsic c := rfl
  simp only [call, hintrinsic]
  simp only [naming]
  cases hk : w.unit.helper? callee with
  | none => rfl
  | some k => simp only [h k hk]

mutual
theorem fragment_naming (loopIndex : Option String) (dot : Bool) (f : Fragment)
    (h : w.Keeps name args (f.values dot) f.nested) :
    (w.naming name args).fragment loopIndex dot f = w.fragment loopIndex dot f := by
  cases f with
  | token t =>
    rw [fragment, fragment, token_naming (h.mono (List.Subset.refl _) (nil_subset _))]
  | call callee source loc =>
    have hargs := arguments_naming loopIndex source
      (h.mono (List.Subset.refl _) (subset_cons_self _ _))
    have hcall (texts : List String) : (w.naming name args).call callee source texts loc =
        w.call callee source texts loc :=
      call_naming fun k => h.calls callee source loc k mem_cons_self
    unfold fragment
    simp only [hargs, hcall]
  | initMain loc | branch cond yes no loc => simp only [fragment, naming]
  | ret source loc =>
    cases source with
    | nil => simp only [fragment, naming]
    | cons value more =>
      have hkeeps := h.mono (List.Subset.refl _) (subset_cons_self _ _)
      simp only [values, valuesArgs, nestedArgs] at hkeeps
      simp only [fragment, fragments_naming loopIndex false value hkeeps.left]
      simp only [naming]

theorem fragments_naming (loopIndex : Option String) (dot : Bool) (fs : List Fragment)
    (h : w.Keeps name args (valuesList dot fs) (nestedList fs)) :
    (w.naming name args).fragments loopIndex dot fs = w.fragments loopIndex dot fs := by
  cases fs with
  | nil => simp only [fragments]
  | cons f fs =>
    simp only [fragments, fragment_naming loopIndex dot f h.left,
      fragments_naming loopIndex (f.isDelimiter .dot) fs h.right]

theorem arguments_naming (loopIndex : Option String) (source : List (List Fragment))
    (h : w.Keeps name args (valuesArgs source) (nestedArgs source)) :
    (w.naming name args).arguments loopIndex source = w.arguments loopIndex source := by
  cases source with
  | nil => simp only [arguments]
  | cons arg source =>
    simp only [arguments, fragments_naming loopIndex false arg h.left,
      arguments_naming loopIndex source h.right]
end

/-- Names and arguments are those of the writer for all that fragments name and call. -/
abbrev KeepsAll (w : Writer) (name : Frequency → TableResource → String)
    (args : UnitFunction → List String) (fs : List Fragment) : Prop :=
  w.Keeps name args (Fragment.valuesList false fs) (Fragment.nestedList fs)

theorem KeepsAll.front (h : w.KeepsAll name args (fs ++ gs)) : w.KeepsAll name args fs := by
  rw [KeepsAll, valuesList_append, nestedList_append] at h
  exact h.left

/-- What stands after a dot is not a value, so a part that is written by itself must not follow
one. -/
theorem KeepsAll.back (h : w.KeepsAll name args (fs ++ gs))
    (hdot : dotAfter false fs = false) : w.KeepsAll name args gs := by
  rw [KeepsAll, valuesList_append, nestedList_append, hdot] at h
  exact h.right

theorem pieces_naming (h : w.KeepsAll name args fs) :
    (w.naming name args).pieces loopIndex fs = w.pieces loopIndex fs :=
  fragments_naming loopIndex false fs h

theorem expression_naming (h : w.KeepsAll name args fs) :
    (w.naming name args).expression loopIndex fs = w.expression loopIndex fs := by
  rw [expression, expression, pieces_naming loopIndex h]

theorem not_dot_of_word? {n : String} (h : f.word? = some n) : f.isDelimiter .dot = false := by
  cases f with
  | token t =>
    obtain ⟨token, loc⟩ := t
    cases token <;> simp_all [word?, token?, isDelimiter]
  | _ => rfl

theorem scan_naming {count : Nat} {access : NonUniformAccess} {statement : List Fragment}
    (h : w.KeepsAll name args statement) (hindex : w.KeepsAll name args access.index) :
    (w.naming name args).scan count access statement = w.scan count access statement := by
  have hdeclared : (w.naming name args).declared? statement = w.declared? statement := rfl
  have hunit : (w.naming name args).unit = w.unit := rfl
  simp only [scan, hdeclared, hunit, expression_naming none hindex]
  cases hn : w.declared? statement with
  | none => simp only [pure_bind, expression_naming _ h]
  | some n =>
    obtain _ | ⟨first, _ | ⟨second, _ | ⟨equals, more⟩⟩⟩ := statement
    iterate 3 cases hn
    have hfirst : first.isDelimiter .dot = false := by
      simp only [declared?, Option.bind_eq_bind, Option.bind_eq_some_iff] at hn
      obtain ⟨_, htype, -⟩ := hn
      exact not_dot_of_word? htype
    have hsplit : w.KeepsAll name args ([first] ++ (second :: equals :: more)) := h
    have hrest := hsplit.back (by simpa [dotAfter] using hfirst)
    simp only [take_succ_cons, take_zero, drop_succ_cons, drop_zero, pure_bind,
      expression_naming _ hsplit.front, expression_naming _ hrest]

theorem endStatement_naming (h : w.KeepsAll name args p.statement.reverse) :
    (w.naming name args).endStatement p = w.endStatement p := by
  unfold endStatement
  cases ha : NonUniformAccess.first? p.statement.reverse with
  | none => simp only [ha, pieces_naming none h]
  | some access =>
    obtain ⟨hv, hn⟩ := NonUniformAccess.index_subset_of_inFragments? _ false ha
    simp only [ha, scan_naming h (h.mono hv hn)]

/-- A marker has no word of its own, so it does not matter what stands before it. -/
theorem KeepsAll.marker (h : w.KeepsAll name args (fs ++ f :: gs))
    (hf : ∀ dot, f.values dot = f.values false) : w.KeepsAll name args [f] := by
  rw [KeepsAll, valuesList_append, nestedList_append] at h
  have hback := h.right
  simp only [valuesList, nestedList, hf] at hback
  simpa [KeepsAll, valuesList, nestedList] using hback.left

theorem step_naming (h : w.KeepsAll name args (p.statement.reverse ++ f :: fs)) :
    (w.naming name args).step p f = w.step p f := by
  have hkept : w.KeepsAll name args (f :: p.statement).reverse := by
    rw [← singleton_append, ← append_assoc] at h
    simpa using h.front
  rw [step_eq, step_eq]
  cases hf : f.fate p.depth with
  | keep => rfl
  | close => exact endStatement_naming hkept
  | brace loc =>
    simp only [reverse_cons] at hkept
    simp only [follow, endHeader, pieces_naming none hkept]
    rfl
  | alone =>
    have hvalues (dot : Bool) : f.values dot = f.values false := by
      obtain ⟨loc, rfl⟩ | ⟨source, loc, rfl⟩ := marker_of_alone hf <;>
        simp only [values]
    simp only [follow, endStatement_naming h.front, pieces_naming none (h.marker hvalues)]

/-- A step keeps the fragment for the statement under way, or starts a new one, never after a
dot. -/
theorem statement_of_step (h : w.step p f = .ok q) :
    q.statement = f :: p.statement ∨ q.statement = [] ∧ f.isDelimiter .dot = false := by
  obtain ⟨rfl, -⟩ | ⟨hf, -, s, pieces, -, ⟨rfl, -⟩ | ⟨more, -, rfl, -⟩⟩ := step_cases h [] []
  · exact .inl rfl
  · exact .inr ⟨rfl, hf.dot⟩
  · exact .inr ⟨rfl, hf.dot⟩

theorem KeepsAll.step (h : w.KeepsAll name args (p.statement.reverse ++ f :: fs))
    (hstep : w.step p f = .ok q) : w.KeepsAll name args (q.statement.reverse ++ fs) := by
  rw [← singleton_append, ← append_assoc] at h
  rcases statement_of_step hstep with hq | ⟨hq, hdot⟩
  · simpa [hq] using h
  · rw [hq]
    exact h.back ((dotAfter_append_singleton _ _ _).trans hdot)

theorem foldlM_step_naming (h : w.KeepsAll name args (p.statement.reverse ++ fs)) :
    fs.foldlM (w.naming name args).step p = fs.foldlM w.step p ∧
      ∀ q, fs.foldlM w.step p = .ok q → w.KeepsAll name args q.statement.reverse := by
  induction fs generalizing p with
  | nil =>
    refine ⟨rfl, fun q hq => ?_⟩
    cases hq
    simpa using h
  | cons f fs ih =>
    simp only [foldlM_cons, step_naming h]
    cases hstep : w.step p f with
    | error e => exact ⟨rfl, fun q hq => by cases hq⟩
    | ok p₁ => exact ih (h.step hstep)

/-- The text of a body stays the same if all that it names and hands on is named as before. -/
theorem body_naming (h : w.KeepsAll name args fs) : (w.naming name args).body fs = w.body fs := by
  have hlanguage : (w.naming name args).language.nonUniform = w.language.nonUniform := rfl
  rw [body, body, statements, statements, hlanguage]
  cases w.language.nonUniform with
  | scan =>
    obtain ⟨hfold, hkeeps⟩ := foldlM_step_naming (w := w) (p := .start) h
    simp only [hfold]
    cases hp : fs.foldlM w.step .start with
    | error e => rfl
    | ok p =>
      have hend := endStatement_naming (hkeeps p hp)
      simp only [bind, Except.bind, hend]
  | qualifier | native => rw [pieces_naming none h]

end Writer
end ShaderDialect
