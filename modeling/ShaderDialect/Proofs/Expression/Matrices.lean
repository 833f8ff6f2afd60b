import ShaderDialect.Proofs.Expression.Evaluation
import ShaderDialect.Proofs.Expression.Operands

/-! Matrices on all targets. What is made of columns or rows and taken apart by column, row or
element has the same value in the language of every target. -/
namespace ShaderDialect

open List Success Expression
open Scan (tokens? Shown)

/-- The intrinsic that makes a matrix from its columns or from its rows. -/
def Extent.makeName (n : Extent) (columns : Bool) : String :=
  "make_f" ++ toString n.size ++ "x" ++ toString n.size ++ if columns then "_cols" else "_rows"

/-- The intrinsics on matrices, on names and numbers and on one another. -/
inductive MatrixTerm
  | atom (t : Placed)
  | make (n : Extent) (columns : Bool) (args : Fin n.size → MatrixTerm) (loc : Loc)
  | getCol (m i : MatrixTerm) (loc : Loc)
  | getRow (m i : MatrixTerm) (loc : Loc)
  | getElem (m c r : MatrixTerm) (loc : Loc)

namespace MatrixTerm
variable {columns : Bool} {loc' : Loc} {K : Type} {σ : Token → Option (Value K)}
  {m c r i : MatrixTerm} {n : Extent} {v : Value K} {args : Fin n.size → MatrixTerm} {loc : Loc}

def fragment : MatrixTerm → Fragment
  | atom t => .token t
  | make n columns args loc =>
    .call (n.makeName columns) (List.ofFn fun i => [(args i).fragment]) loc
  | getCol m i loc => .call "getCol" [[m.fragment], [i.fragment]] loc
  | getRow m i loc => .call "getRow" [[m.fragment], [i.fragment]] loc
  | getElem m c r loc => .call "getElem" [[m.fragment], [c.fragment], [r.fragment]] loc

def atoms : MatrixTerm → List Token
  | atom t => [t.token]
  | make _ _ args _ => (List.ofFn fun i => (args i).atoms).flatten
  | getCol m i _ | getRow m i _ => m.atoms ++ i.atoms
  | getElem m c r _ => m.atoms ++ c.atoms ++ r.atoms

/-- The value of a term, given those of its names and numbers. -/
def denote (σ : Token → Option (Value K)) : MatrixTerm → Option (Value K)
  | atom t => σ t.token
  | make n columns args _ =>
    (Value.all? fun i => (denote σ (args i)).bind (Value.vector? n.size)).map (Value.made columns)
  | getCol m i _ => (denote σ m).bind fun a => (denote σ i).bind fun k => a.column? k
  | getRow m i _ => (denote σ m).bind fun a => (denote σ i).bind fun k => a.row? k
  | getElem m c r _ =>
    (denote σ m).bind fun a => (denote σ c).bind fun k => (denote σ r).bind fun l => a.element? k l

theorem denote_make (h : (make n columns args loc).denote σ = some v) :
    ∃ vs : Fin n.size → Fin n.size → K,
      (∀ i, (args i).denote σ = some (.vector n.size (vs i))) ∧ v = Value.made columns vs := by
  simp only [denote, Option.map_eq_some_iff, Value.all?_eq_some, Option.bind_eq_some_iff,
    Value.vector?_eq_some] at h
  obtain ⟨vs, hvs, rfl⟩ := h
  refine ⟨vs, fun i => ?_, rfl⟩
  obtain ⟨a, ha, rfl⟩ := hvs i
  exact ha

variable {k : Nat}

theorem denote_getCol_make (h : (make n true args loc).denote σ = some v)
    (hi : i.denote σ = some (.number k)) (hk : k < n.size) :
    (getCol (make n true args loc) i loc').denote σ = (args ⟨k, hk⟩).denote σ := by
  obtain ⟨vs, hvs, rfl⟩ := denote_make h
  rw [denote, h, hi, hvs]
  simp [Value.made, Value.column?, Value.under?, hk]

theorem denote_getRow_make (h : (make n false args loc).denote σ = some v)
    (hi : i.denote σ = some (.number k)) (hk : k < n.size) :
    (getRow (make n false args loc) i loc').denote σ = (args ⟨k, hk⟩).denote σ := by
  obtain ⟨vs, hvs, rfl⟩ := denote_make h
  rw [denote, h, hi, hvs]
  simp [Value.made, Value.row?, Value.under?, hk]

theorem denote_getElem (m c r : MatrixTerm) (loc loc' : Loc) :
    (getElem m c r loc).denote σ =
      ((getCol m c loc').denote σ).bind fun a => (r.denote σ).bind fun k => a.component? k := by
  simp only [denote]
  cases m.denote σ with
  | none => rfl
  | some a =>
    cases c.denote σ with
    | none => rfl
    | some k =>
      cases r.denote σ with
      | none =>
        simp only [Option.bind_some, Option.bind_none]
        exact (Option.bind_fun_none _).symm
      | some l => exact a.element?_eq_bind_column? k l

end MatrixTerm

theorem Expression.grouped_named {isType : String → Bool} {name : String} {es : List Expression}
    (h : ∀ e ∈ es, e.level = 14 ∧ e.grouped isType) : (named name es).grouped isType := by
  have hargs : argsGrouped isType es := by
    induction es with
    | nil => rfl
    | cons e es ih =>
      obtain ⟨⟨hlevel, hgrouped⟩, hrest⟩ := forall_mem_cons.1 h
      simp [argsGrouped, hlevel, hgrouped, ih hrest]
  simp [named, grouped, hargs, isAtom]

theorem forall₂_ofFn {α β : Type} {R : α → β → Prop} {n : Nat} {f : Fin n → α} {g : Fin n → β}
    (h : ∀ i, R (f i) (g i)) : List.Forall₂ R (List.ofFn f) (List.ofFn g) := by
  induction n with
  | zero => simp
  | succ n ih =>
    rw [ofFn_succ, ofFn_succ]
    exact .cons (h 0) (ih fun i => h i.succ)

namespace Operation
variable {K : Type} {ρ : Expression → Option (Value K)} {target : Target} {e f g : Expression}
  {a k l v : Value K}

/-- The tree of an operation has a value, if its operands are tight. -/
def Gives (op : Operation) (target : Target) (ρ : Expression → Option (Value K))
    (trees : List Expression) (v : Value K) : Prop :=
  ∃ tree, op.tree? target trees = some tree ∧
    List.Forall₂ (fun n (e : Expression) => n ≤ e.level) (op.places target) trees ∧
    tree.level = 14 ∧ tree.eval target ρ = some v

theorem gives_getCol (he : e.level = 14) (ha : e.eval target ρ = some a)
    (hk : f.eval target ρ = some k) (hv : a.column? k = some v) :
    getCol.Gives target ρ [e, f] v := by
  obtain ⟨hcolumn, b, hb, hrow⟩ := Value.indexed?_of_column? hv
  cases target with
  | direct3d12 =>
    refine ⟨_, rfl, by simp [places, he], rfl, ?_⟩
    exact (eval_index ((eval_transpose ha).trans hb) hk).trans hrow
  | vulkan | metal => exact ⟨_, rfl, by simp [places, he], rfl, (eval_index ha hk).trans hcolumn⟩

theorem gives_getRow (he : e.level = 14) (ha : e.eval target ρ = some a)
    (hk : f.eval target ρ = some k) (hv : a.row? k = some v) : getRow.Gives target ρ [e, f] v := by
  obtain ⟨hrow, b, hb, hcolumn⟩ := Value.indexed?_of_row? hv
  cases target with
  | direct3d12 => exact ⟨_, rfl, by simp [places, he], rfl, (eval_index ha hk).trans hrow⟩
  | vulkan | metal =>
    refine ⟨_, rfl, by simp [places, he], rfl, ?_⟩
    exact (eval_index ((eval_transpose ha).trans hb) hk).trans hcolumn

theorem gives_getElem (he : e.level = 14) (ha : e.eval target ρ = some a)
    (hk : f.eval target ρ = some k) (hl : g.eval target ρ = some l) (hv : a.element? k l = some v) :
    getElem.Gives target ρ [e, f, g] v := by
  obtain ⟨⟨b, hb, hcolumn⟩, c, hc, hrow⟩ := Value.indexed?_of_element? hv
  cases target with
  | direct3d12 =>
    refine ⟨_, rfl, by simp [places, he], rfl, ?_⟩
    exact (eval_index ((eval_index ha hl).trans hc) hk).trans hrow
  | vulkan | metal =>
    refine ⟨_, rfl, by simp [places, he], rfl, ?_⟩
    exact (eval_index ((eval_index ha hk).trans hb) hl).trans hcolumn

end Operation

namespace Writer
variable {columns : Bool} {texts : List String} {isType : String → Bool}

variable {K : Type} {ρ : Expression → Option (Value K)} {loopIndex : Option String}
  {u : ShaderUnit} {option : Bool} {role : Role}

/-- A fragment is written as one operand with a value. -/
def Yields (w : Writer) (loopIndex : Option String) (isType : String → Bool)
    (ρ : Expression → Option (Value K)) (f : Fragment) (v : Value K) : Prop :=
  ∃ text e, w.fragment loopIndex false f = .ok [.word text] ∧ Reads isType text e ∧ e.level = 14 ∧
    e.eval w.unit.target ρ = some v

theorem arguments_of_fragments {w : Writer} {fs : List Fragment}
    (h : List.Forall₂ (fun f text => w.fragment loopIndex false f = .ok [.word text]) fs texts) :
    w.arguments loopIndex (fs.map fun f => [f]) = .ok texts := by
  induction h with
  | nil => rfl
  | @cons f text fs texts h hs ih =>
    have hfirst : w.fragments loopIndex false [f] = .ok [.word text] := by
      simp only [fragments, h]
      rfl
    simp only [map_cons, arguments, hfirst, ih]
    simp [bind, Except.bind, pure, Except.pure, Piece.inline, Piece.textAfter, Piece.text]

theorem yields_operation (op : Operation) (fs : List Fragment) {trees : List Expression}
    {v : Value K} (loc : Loc) (hhelper : u.helper? op.name = none)
    (hfs : List.Forall₂ (fun f text => Writer.fragment ⟨u.target.language option, u, role⟩ loopIndex
      false f = .ok [.word text]) fs texts) (hreads : List.Forall₂ (Reads isType) texts trees)
    (hgives : op.Gives u.target ρ trees v) :
    Yields ⟨u.target.language option, u, role⟩ loopIndex isType ρ
      (.call op.name (fs.map fun f => [f]) loc) v := by
  obtain ⟨tree, htree, hplaces, hlevel, hv⟩ := hgives
  have hspells : List.Forall₂ Spells texts trees := hreads.imp fun _ _ h => h.spells
  have hgrouped : ∀ e ∈ trees, e.grouped isType := by
    intro e he
    obtain ⟨i, hi, rfl⟩ := getElem_of_mem he
    exact (hreads.get (by rw [hreads.length_eq]; exact hi) hi).grouped
  obtain ⟨text, hcall, htext⟩ :=
    call_spells u option role (fs.map fun f => [f]) loc hhelper hspells htree
  refine ⟨text, tree, ?_, ⟨htext, (Operation.grouped_iff htree hgrouped).2 hplaces⟩, hlevel, hv⟩
  rw [fragment_call (arguments_of_fragments hfs), hcall]
  rfl

variable {n : Extent}

theorem call_make (hhelper : u.helper? (n.makeName columns) = none) (source : List (List Fragment))
    (texts : Fin n.size → String) (loc : Loc) :
    let made := callText (u.target.matrixType n) (List.ofFn texts)
    Writer.call ⟨u.target.language option, u, role⟩ (n.makeName columns) source
      (List.ofFn texts) loc =
      .ok (if columns = u.target.takesColumns then made else callText "transpose" [made]) := by
  have hname : Intrinsic.ofName? (n.makeName columns) = some (.makeMatrix n.size columns) := by
    cases n <;> cases columns <;> decide
  have htype : (u.target.language option).typeName (.matrix .float n.size n.size) =
      u.target.matrixType n := by
    cases u.target <;> cases n <;> rfl
  have hcolumns : (u.target.language option).columnsFirst = u.target.takesColumns := by
    cases u.target <;> rfl
  have haccepts : (Intrinsic.makeMatrix n.size columns).accepts (List.ofFn texts).length := by
    simp [Intrinsic.accepts, Intrinsic.arity]
  simp only [call, hhelper, hname, haccepts, if_true, intrinsic, htype, hcolumns]
  have htransposed : ∀ text : String, s!"transpose({text})" = callText "transpose" [text] := by
    intro text
    simp [callText, toString]
  rw [htransposed]

theorem yields_make {fs : Fin n.size → Fragment} {vs : Fin n.size → Fin n.size → K} (loc : Loc)
    (hhelper : u.helper? (n.makeName columns) = none)
    (h : ∀ i, Yields ⟨u.target.language option, u, role⟩ loopIndex isType ρ (fs i)
      (.vector n.size (vs i))) :
    Yields ⟨u.target.language option, u, role⟩ loopIndex isType ρ
      (.call (n.makeName columns) (List.ofFn fun i => [fs i]) loc) (Value.made columns vs) := by
  choose texts trees hfs hreads hlevel hvalue using h
  have hargs : Writer.arguments ⟨u.target.language option, u, role⟩ loopIndex
      (List.ofFn fun i => [fs i]) = .ok (List.ofFn texts) := by
    have hmap : (List.ofFn fun i => [fs i]) = (List.ofFn fs).map fun f => [f] := by
      rw [map_ofFn]
      rfl
    rw [hmap]
    exact arguments_of_fragments (forall₂_ofFn hfs)
  have hname : n.makeName columns ≠ nonUniformCall := by
    cases n <;> cases columns <;> decide
  have hfragment := fragment_named hname hargs false loc
  rw [call_make hhelper] at hfragment
  have hword : tokens? (u.target.matrixType n).toList = some [.word (u.target.matrixType n)] := by
    refine Scan.tokens?_eq_singleton ?_
    cases u.target <;> cases n <;> decide
  have hmade : Reads isType (callText (u.target.matrixType n) (List.ofFn texts))
      (named (u.target.matrixType n) (List.ofFn trees)) := by
    refine ⟨.called hword (forall₂_ofFn fun i => (hreads i).spells), grouped_named fun e he => ?_⟩
    obtain ⟨i, rfl⟩ := mem_ofFn.1 he
    exact ⟨hlevel i, (hreads i).grouped⟩
  have hvalue := eval_matrixType hvalue
  by_cases hcolumns : columns = u.target.takesColumns
  · rw [if_pos hcolumns] at hfragment
    subst hcolumns
    exact ⟨_, _, hfragment, hmade, rfl, hvalue⟩
  · rw [if_neg hcolumns] at hfragment
    have htranspose : tokens? "transpose".toList = some [.word "transpose"] :=
      tokens?_symbols.1 "transpose" (by decide)
    refine ⟨_, named "transpose" [_], hfragment, ⟨.called htranspose (.cons hmade.spells .nil),
      grouped_named ?_⟩, rfl, ?_⟩
    · exact forall_mem_singleton.2 ⟨rfl, hmade.grouped⟩
    · have hother : columns = !u.target.takesColumns := by
        revert hcolumns
        cases columns <;> cases u.target.takesColumns <;> simp
      rw [hother]
      exact (eval_transpose hvalue).trans (Value.transposed?_made _ vs)

end Writer

namespace MatrixTerm
variable {K : Type} {σ : Token → Option (Value K)} {ρ : Expression → Option (Value K)}
  {isType : String → Bool} {u : ShaderUnit} {option : Bool} {role : Role}
  {loopIndex : Option String}

def names : List String :=
  Extent.all.flatMap (fun n => [n.makeName true, n.makeName false]) ++
    ["getCol", "getRow", "getElem"]

theorem makeName_mem_names (n : Extent) (columns : Bool) : n.makeName columns ∈ names := by
  cases n <;> cases columns <;> decide

/-- A unit in which a term is written: the term's atoms are names and numbers, what they are written
as has their values, and no helper hides an intrinsic. -/
structure Hosts (u : ShaderUnit) (option : Bool) (role : Role) (isType : String → Bool)
    (σ : Token → Option (Value K)) (ρ : Expression → Option (Value K)) (atoms : List Token) :
    Prop where
  operands : ∀ t ∈ atoms, t.IsOperand
  values : ∀ t ∈ atoms, ∀ e,
    Reads isType (Writer.token ⟨u.target.language option, u, role⟩ false t).text e → ρ e = σ t
  helpers : ∀ name ∈ names, u.helper? name = none

theorem Hosts.mono {atoms atoms' : List Token} (h : Hosts u option role isType σ ρ atoms)
    (hsub : atoms' ⊆ atoms) : Hosts u option role isType σ ρ atoms' :=
  ⟨fun t ht => h.operands t (hsub ht), fun t ht => h.values t (hsub ht), h.helpers⟩

theorem eval_leaf {e : Expression} (h : e.IsLeaf) (target : Target) : e.eval target ρ = ρ e := by
  cases e <;> first | rfl | cases h

/-- By induction on the term: it is written as one operand with its value. -/
theorem yields {t : MatrixTerm} (h : Hosts u option role isType σ ρ t.atoms) {v : Value K}
    (hv : t.denote σ = some v) :
    Writer.Yields ⟨u.target.language option, u, role⟩ loopIndex isType ρ t.fragment v := by
  induction t generalizing v with
  | atom t =>
    have ht : t.token ∈ (atom t).atoms := mem_cons_self
    obtain ⟨text, e, htext, hreads, hleaf⟩ := Writer.reads_operand u option role (h.operands _ ht)
    refine ⟨text, e, ?_, hreads, level_leaf hleaf, ?_⟩
    · simp only [fragment, Writer.fragment, htext]
    · rw [eval_leaf hleaf, h.values _ ht e (by rw [htext]; exact hreads)]
      exact hv
  | make n columns args loc ih =>
    obtain ⟨vs, hvs, rfl⟩ := denote_make hv
    have hsub : ∀ i, (args i).atoms ⊆ (make n columns args loc).atoms :=
      fun i a ha => mem_flatten.2 ⟨_, mem_ofFn.2 ⟨i, rfl⟩, ha⟩
    refine Writer.yields_make loc (h.helpers _ (makeName_mem_names n columns)) fun i => ?_
    exact ih i (h.mono (hsub i)) (hvs i)
  | getCol m i loc ihm ihi =>
    simp only [denote, Option.bind_eq_some_iff] at hv
    obtain ⟨a, ha, k, hk, hv⟩ := hv
    obtain ⟨_, _, hm, hrm, hlevel, hem⟩ := ihm (h.mono (subset_append_left _ _)) ha
    obtain ⟨_, _, hi, hri, -, hei⟩ := ihi (h.mono (subset_append_right _ _)) hk
    exact Writer.yields_operation .getCol [m.fragment, i.fragment] loc (h.helpers _ (by decide))
      (.cons hm (.cons hi .nil)) (.cons hrm (.cons hri .nil))
        (Operation.gives_getCol hlevel hem hei hv)
  | getRow m i loc ihm ihi =>
    simp only [denote, Option.bind_eq_some_iff] at hv
    obtain ⟨a, ha, k, hk, hv⟩ := hv
    obtain ⟨_, _, hm, hrm, hlevel, hem⟩ := ihm (h.mono (subset_append_left _ _)) ha
    obtain ⟨_, _, hi, hri, -, hei⟩ := ihi (h.mono (subset_append_right _ _)) hk
    exact Writer.yields_operation .getRow [m.fragment, i.fragment] loc (h.helpers _ (by decide))
      (.cons hm (.cons hi .nil)) (.cons hrm (.cons hri .nil))
        (Operation.gives_getRow hlevel hem hei hv)
  | getElem m c r loc ihm ihc ihr =>
    simp only [denote, Option.bind_eq_some_iff] at hv
    obtain ⟨a, ha, k, hk, l, hl, hv⟩ := hv
    have hmc : m.atoms ++ c.atoms ⊆ (getElem m c r loc).atoms := subset_append_left _ _
    obtain ⟨_, _, hm, hrm, hlevel, hem⟩ :=
      ihm (h.mono (List.Subset.trans (subset_append_left _ _) hmc)) ha
    obtain ⟨_, _, hc, hrc, -, hec⟩ :=
      ihc (h.mono (List.Subset.trans (subset_append_right _ _) hmc)) hk
    obtain ⟨_, _, hr, hrr, -, her⟩ := ihr (h.mono (subset_append_right _ _)) hl
    exact Writer.yields_operation .getElem [m.fragment, c.fragment, r.fragment] loc
      (h.helpers _ (by decide)) (.cons hm (.cons hc (.cons hr .nil)))
      (.cons hrm (.cons hrc (.cons hrr .nil))) (Operation.gives_getElem hlevel hem hec her hv)

/-- The intrinsics on matrices have the same value on every target: a term is written as one
expression, whose value by the conventions of the target's language is that of the term. A column of
a matrix that was made of columns is one of those, likewise for rows, and an element is a component
of its column. -/
theorem value_on_targets (σ : Token → Option (Value K)) :
    (∀ t v, denote σ t = some v → ∀ u option role loopIndex isType ρ,
      Hosts u option role isType σ ρ t.atoms → ∃ text e,
        Writer.fragment ⟨u.target.language option, u, role⟩ loopIndex false t.fragment =
          .ok [.word text] ∧
        (∀ e', Reads isType text e' ↔ e' = e) ∧ e.eval u.target ρ = some v) ∧
    (∀ (n : Extent) args i v k loc loc', denote σ (make n true args loc) = some v →
      denote σ i = some (.number k) → ∀ hk : k < n.size,
        denote σ (getCol (make n true args loc) i loc') = denote σ (args ⟨k, hk⟩)) ∧
    (∀ (n : Extent) args i v k loc loc', denote σ (make n false args loc) = some v →
      denote σ i = some (.number k) → ∀ hk : k < n.size,
        denote σ (getRow (make n false args loc) i loc') = denote σ (args ⟨k, hk⟩)) ∧
    ∀ m c r loc loc', denote σ (getElem m c r loc) =
      (denote σ (getCol m c loc')).bind fun a => (denote σ r).bind fun k => a.component? k := by
  refine ⟨fun t v hv u option role loopIndex isType ρ h => ?_,
    fun n args i v k loc loc' h hi hk => denote_getCol_make h hi hk,
    fun n args i v k loc loc' h hi hk => denote_getRow_make h hi hk, denote_getElem⟩
  obtain ⟨text, e, htext, hreads, -, hvalue⟩ := yields h hv
  exact ⟨text, e, htext, fun e' => ⟨fun h' => h'.unique hreads, fun h' => h' ▸ hreads⟩, hvalue⟩

/-- The element of the first row in column `i` of a matrix with the rows `a` and `sample`. -/
def sampleTerm : MatrixTerm :=
  let token (t : Token) : MatrixTerm := atom ⟨t, ⟨"one.fsl", 9⟩⟩
  getElem
    (make .two false (fun i => token (.word (if i.val = 0 then "a" else "sample"))) ⟨"one.fsl", 9⟩)
    (token (.word "i")) (token (.int "0")) ⟨"one.fsl", 9⟩

def sampleValue : Token → Option (Value Nat)
  | .word "a" => some (.vector 2 fun i => 10 + i.val)
  | .word "sample" => some (.vector 2 fun i => 20 + i.val)
  | .word "i" => some (.number 1)
  | .int "0" => some (.number 0)
  | _ => none

/-- Where `sample` is reserved, a variable with an underscore has its value. -/
def sampleVariable : Expression → Option (Value Nat)
  | .atom (.word "sample_") => sampleValue (.word "sample")
  | .atom t => sampleValue t
  | _ => none

theorem sampleTerm_atoms :
    sampleTerm.atoms = [.word "a", .word "sample", .word "i", .int "0"] := by decide +kernel

theorem sampleVariable_of_reads (t : Token) {text : String} {v : Option (Value Nat)}
    (ht : Scan.token text.toList = some (t, []) ∧ (text.toList.head?.all fun c => !Text.isBlank c) ∧
      (Scan.commentStart text.toList).isSome = false) (hatom : isAtom t)
    (hv : sampleVariable (.atom t) = v) :
    ∀ e, Reads (fun _ => false) text e → sampleVariable e = v := by
  intro e he
  rw [he.unique ⟨.literal ht, hatom⟩, hv]

theorem hosts_sampleTerm (target : Target) :
    Hosts (Writer.bareUnit target) true .entry (fun _ => false) sampleValue sampleVariable
      sampleTerm.atoms := by
  rw [sampleTerm_atoms]
  refine ⟨?_, ?_, fun name _ => rfl⟩ <;>
    simp only [forall_mem_cons, not_mem_nil, false_imp_iff, implies_true, and_true]
  · refine ⟨⟨⟨_, _, rfl, by decide, rfl⟩, ?_⟩, ⟨⟨_, _, rfl, by decide, rfl⟩, ?_⟩,
      ⟨⟨_, _, rfl, by decide, rfl⟩, ?_⟩, ⟨_, _, rfl, by decide, rfl⟩⟩ <;> decide +kernel
  · refine ⟨?_, ?_, ?_, ?_⟩
    · cases target <;> exact sampleVariable_of_reads (.word "a") (by decide +kernel) rfl rfl
    · cases target with
      | direct3d12 | metal =>
        exact sampleVariable_of_reads (.word "sample") (by decide +kernel) rfl rfl
      | vulkan => exact sampleVariable_of_reads (.word "sample_") (by decide +kernel) rfl rfl
    · cases target <;> exact sampleVariable_of_reads (.word "i") (by decide +kernel) rfl rfl
    · cases target <;> exact sampleVariable_of_reads (.int "0") (by decide +kernel) rfl rfl

theorem value_on_targets_sampleTerm :
    denote sampleValue sampleTerm = some (.scalar 11) ∧ ∀ target : Target, ∃ text e,
      Writer.fragment ⟨target.language true, Writer.bareUnit target, .entry⟩ none false
        sampleTerm.fragment = .ok [.word text] ∧
      (∀ e', Reads (fun _ => false) text e' ↔ e' = e) ∧
      e.eval target sampleVariable = some (.scalar 11) := by
  have hvalue : denote sampleValue sampleTerm = some (.scalar 11) := by rfl
  exact ⟨hvalue, fun target => (value_on_targets sampleValue).1 sampleTerm _ hvalue
    (Writer.bareUnit target) true .entry none (fun _ => false) sampleVariable
      (hosts_sampleTerm target)⟩

end MatrixTerm
end ShaderDialect
