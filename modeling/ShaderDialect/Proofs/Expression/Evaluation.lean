import Mathlib.LinearAlgebra.Matrix.Defs
import ShaderDialect.Emit.Shader
import ShaderDialect.Proofs.Expression.Grammar

/-! Values of expressions over vectors and square matrices. Languages differ on whether a matrix is
built from its columns and indexed by column, or from its rows and indexed by row. -/
namespace ShaderDialect

inductive Extent
  | two | three | four
  deriving Repr, DecidableEq

def Extent.size : Extent → Nat
  | two => 2
  | three => 3
  | four => 4

def Extent.all : List Extent := [two, three, four]

/-- The values of expressions; numbers are those that index. -/
inductive Value (K : Type)
  | number (n : Nat)
  | scalar (x : K)
  | vector (n : Nat) (v : Fin n → K)
  | matrix (n : Nat) (m : Matrix (Fin n) (Fin n) K)

namespace Value
variable {K α : Type} {n : Nat} {a i j v : Value K}

/-- The element under an index that is in range. -/
def under? (f : Fin n → α) (k : Nat) : Option α := if h : k < n then some (f ⟨k, h⟩) else none

def all? (f : Fin n → Option α) : Option (Fin n → α) :=
  if h : ∀ i, (f i).isSome then some fun i => (f i).get (h i) else none

theorem under?_eq_some {f : Fin n → α} {k : Nat} {x : α} :
    under? f k = some x ↔ ∃ h : k < n, f ⟨k, h⟩ = x := by
  simp [under?]

theorem all?_eq_some {f : Fin n → Option α} {g : Fin n → α} :
    all? f = some g ↔ ∀ i, f i = some (g i) := by
  unfold all?
  constructor
  · intro h i
    split at h
    · rw [← Option.some.inj h, Option.some_get]
    · cases h
  · intro h
    simp [h]

def row? : Value K → Value K → Option (Value K)
  | matrix n m, number k => (under? m.row k).map (vector n)
  | _, _ => none

def column? : Value K → Value K → Option (Value K)
  | matrix n m, number k => (under? m.col k).map (vector n)
  | _, _ => none

def component? : Value K → Value K → Option (Value K)
  | vector _ v, number k => (under? v k).map scalar
  | _, _ => none

def element? : Value K → Value K → Value K → Option (Value K)
  | matrix _ m, number column, number row =>
    (under? m.row row).bind fun r => (under? r column).map scalar
  | _, _, _ => none

def transposed? : Value K → Option (Value K)
  | matrix n m => some (matrix n m.transpose)
  | _ => none

def vector? (n : Nat) : Value K → Option (Fin n → K)
  | vector k v => if h : k = n then some (h ▸ v) else none
  | _ => none

@[simp] theorem vector?_vector (v : Fin n → K) : (vector n v).vector? n = some v := by
  simp [vector?]

theorem vector?_eq_some {v : Fin n → K} : a.vector? n = some v ↔ a = vector n v := by
  refine ⟨fun h => ?_, fun h => h ▸ vector?_vector v⟩
  cases a with
  | vector k w =>
    by_cases hk : k = n
    · subst hk
      rw [vector?_vector] at h
      rw [Option.some.inj h]
    · simp [vector?, hk] at h
  | _ => cases h

def made (columns : Bool) (vs : Fin n → Fin n → K) : Value K :=
  matrix n (if columns then (Matrix.of vs).transpose else Matrix.of vs)

/-- An element of a matrix or a vector; those of a matrix are its columns or its rows. -/
def indexed? (columns : Bool) : Value K → Value K → Option (Value K)
  | matrix n m, k => if columns then (matrix n m).column? k else (matrix n m).row? k
  | a, k => a.component? k

theorem transposed?_made (columns : Bool) (vs : Fin n → Fin n → K) :
    (made columns vs).transposed? = some (made (!columns) vs) := by
  cases columns <;> rfl

theorem indexed?_of_column? (h : a.column? i = some v) :
    a.indexed? true i = some v ∧ ∃ b, a.transposed? = some b ∧ b.indexed? false i = some v := by
  cases a with
  | matrix n m => exact ⟨h, _, rfl, by cases i <;> exact h⟩
  | _ => cases h

theorem indexed?_of_row? (h : a.row? i = some v) :
    a.indexed? false i = some v ∧ ∃ b, a.transposed? = some b ∧ b.indexed? true i = some v := by
  cases a with
  | matrix n m => exact ⟨h, _, rfl, by cases i <;> exact h⟩
  | _ => cases h

theorem element?_eq_bind_column? (a i j : Value K) :
    a.element? i j = (a.column? i).bind fun b => b.component? j := by
  cases a with
  | matrix n m =>
    cases i with
    | number c =>
      cases j with
      | number r => by_cases hr : r < n <;> by_cases hc : c < n <;>
          simp [element?, column?, component?, under?, hr, hc]
      | _ => by_cases hc : c < n <;> simp [element?, column?, component?, under?, hc]
    | _ => rfl
  | _ => rfl

theorem indexed?_of_element? (h : a.element? i j = some v) :
    (∃ b, a.indexed? true i = some b ∧ b.indexed? true j = some v) ∧
      ∃ b, a.indexed? false j = some b ∧ b.indexed? false i = some v := by
  cases a with
  | matrix n m =>
    cases i with
    | number c =>
      cases j with
      | number r =>
        simp only [element?, Option.bind_eq_some_iff, Option.map_eq_some_iff, under?_eq_some] at h
        obtain ⟨_, ⟨hr, rfl⟩, _, ⟨hc, rfl⟩, rfl⟩ := h
        simp [indexed?, column?, row?, component?, under?, hr, hc]
      | _ => cases h
    | _ => cases h
  | _ => cases h

end Value

/-- Whether matrices are built from their columns and indexed by column, or from and by rows. -/
def Target.takesColumns : Target → Bool
  | direct3d12 => false
  | vulkan | metal => true

/-- The type of a matrix, which is the name of its constructor. -/
def Target.matrixType (target : Target) (n : Extent) : String :=
  match target with
  | direct3d12 | metal => s!"float{n.size}x{n.size}"
  | vulkan => s!"mat{n.size}"

/-- The values of calls. -/
def Target.result? {K : Type} (target : Target) (name : String) (args : List (Value K)) :
    Option (Value K) :=
  if name = "transpose" then
    match args with
    | [a] => a.transposed?
    | _ => none
  else do
    let n ← Extent.all.find? (target.matrixType · = name)
    if args.length = n.size then
      let vs ← Value.all? fun i : Fin n.size => args[i.val]?.bind (Value.vector? n.size)
      return Value.made target.takesColumns vs
    else none

theorem Target.result?_transpose {K : Type} (target : Target) (a : Value K) :
    target.result? "transpose" [a] = a.transposed? := rfl

theorem Target.result?_matrixType {K : Type} (target : Target) {n : Extent}
    (vs : Fin n.size → Fin n.size → K) :
    target.result? (target.matrixType n) (List.ofFn fun i => .vector n.size (vs i)) =
      some (Value.made target.takesColumns vs) := by
  have hname : target.matrixType n ≠ "transpose" := by
    cases target <;> cases n <;> decide
  have hfind : Extent.all.find? (target.matrixType · = target.matrixType n) = some n := by
    cases target <;> cases n <;> decide
  have hall : Value.all? (fun i => some (vs i)) = some vs := Value.all?_eq_some.2 fun _ => rfl
  simp [result?, hname, hfind, hall]

namespace Expression
variable {K : Type} (target : Target) (ρ : Expression → Option (Value K))

mutual
/-- The value of an expression on a target, where names and all that is not about matrices have
given values. -/
def eval : Expression → Option (Value K)
  | index e i => do
    let a ← eval e
    let k ← eval i
    a.indexed? target.takesColumns k
  | call f args =>
    match f with
    | atom (.word name) => (evalArgs args).bind (target.result? name)
    | _ => none
  | e => ρ e

def evalArgs : List Expression → Option (List (Value K))
  | [] => some []
  | e :: es => do
    let a ← eval e
    let rest ← evalArgs es
    return a :: rest
end

variable {target ρ} {e i : Expression} {a k : Value K}

theorem eval_index (ha : e.eval target ρ = some a) (hk : i.eval target ρ = some k) :
    (index e i).eval target ρ = a.indexed? target.takesColumns k := by
  simp [eval, ha, hk]

theorem eval_transpose (ha : e.eval target ρ = some a) :
    (call (atom (.word "transpose")) [e]).eval target ρ = a.transposed? := by
  simp [eval, evalArgs, ha, target.result?_transpose]

theorem evalArgs_ofFn {n : Nat} {es : Fin n → Expression} {vs : Fin n → Value K}
    (h : ∀ i, (es i).eval target ρ = some (vs i)) :
    evalArgs target ρ (List.ofFn es) = some (List.ofFn vs) := by
  induction n with
  | zero => simp [evalArgs]
  | succ n ih =>
    rw [List.ofFn_succ, List.ofFn_succ, evalArgs, h 0, ih fun i => h i.succ]
    rfl

theorem eval_matrixType {n : Extent} {es : Fin n.size → Expression}
    {vs : Fin n.size → Fin n.size → K}
    (h : ∀ i, (es i).eval target ρ = some (.vector n.size (vs i))) :
    (call (atom (.word (target.matrixType n))) (List.ofFn es)).eval target ρ =
      some (Value.made target.takesColumns vs) := by
  simp [eval, evalArgs_ofFn h, target.result?_matrixType]

end Expression
end ShaderDialect
