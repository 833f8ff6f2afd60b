import ShaderDialect.Build
import ShaderDialect.Proofs.Build.Rows

/-! Work on one input: what its parts answer and leave, and those that put files in place. -/
namespace ShaderDialect

open Success

/-- A build that has just been started on a tree. -/
def BuildState.ofTree (tree : FileTree) : BuildState := ⟨tree, [], false, []⟩

namespace Building

variable {α β : Type} {w w' : FileWork}

/-- The answer of some work and what it leaves. -/
def after (x : Building α) (w : FileWork) : Except Failure α × FileWork := x.run.run w

theorem after_bind (x : Building α) (f : α → Building β) : after (x >>= f) w =
    match after x w with
    | (.ok a, w') => after (f a) w'
    | (.error e, w') => (.error e, w') := by
  simp only [after, ExceptT.run_bind, StateT.run_bind]
  rcases x.run.run w with ⟨_ | _, _⟩ <;> rfl

theorem after_bind_eq_ok {x : Building α} {f : α → Building β} {r : β} :
    after (x >>= f) w = (.ok r, w') ↔
      ∃ a w₁, after x w = (.ok a, w₁) ∧ after (f a) w₁ = (.ok r, w') := by
  rw [after_bind]
  rcases after x w with ⟨_ | _, _⟩ <;> simp

theorem after_bind_of_ok {x : Building α} {f : α → Building β} {a : α}
    (h : after x w = (.ok a, w')) : after (x >>= f) w = after (f a) w' := by
  rw [after_bind, h]

theorem after_bind_of_error {x : Building α} {f : α → Building β} {e : Failure}
    (h : after x w = (.error e, w')) : after (x >>= f) w = (.error e, w') := by
  rw [after_bind, h]

theorem after_forM_cons (f : β → Building Unit) (x : β) (xs : List β) :
    after ((x :: xs).forM f) w =
      match after (f x) w with
      | (.ok _, w') => after (xs.forM f) w'
      | (.error e, w') => (.error e, w') := by
  change after (f x >>= fun _ => xs.forM f) w = _
  rw [after_bind]
  rcases after (f x) w with ⟨_ | _, _⟩ <;> rfl

theorem after_get_bind (f : FileWork → Building β) : after (get >>= f) w = after (f w) w := by
  rw [after_bind]
  rfl

theorem after_lift (r : Except Failure α) : after (ExceptT.mk (pure r)) w = (r, w) := rfl

theorem after_tryCatch (x : Building α) (f : Failure → Building α) : after (tryCatch x f) w =
    match after x w with
    | (.ok a, w') => (.ok a, w')
    | (.error e, w') => after (f e) w' := by
  change StateT.run (ExceptT.tryCatch x f).run w = _
  simp only [ExceptT.tryCatch, after, ExceptT.run, ExceptT.mk, StateT.run_bind]
  rcases StateT.run x w with ⟨_ | _, _⟩ <;> rfl

end Building

namespace Builder

open Building

theorem after_place {t : FileTree} {r : FileReport} {as : List Path} {p : Path}
    {content : List UInt8} : (place p content).after ⟨.ofTree t, r, as⟩ =
      match t.place p content with
      | .ok t' => (.ok (), ⟨.ofTree t', r, as⟩)
      | .error e => (.error e, ⟨.ofTree t, r, as⟩) := by
  rw [place, after_get_bind]
  simp only [BuildState.ofTree]
  cases t.place p content <;> rfl

def write (fs : List (Path × List UInt8)) : Building Unit := do
  fs.forM fun f => place f.1 f.2
  addArtifacts (fs.map Prod.fst)

theorem write_one (p : Path) (content : List UInt8) :
    (place p content >>= fun _ => addArtifacts [p]) = write [(p, content)] := by
  simp [write]

theorem write_two {α : Type} (p q : Path) (content content' : List UInt8) (k : Unit → Building α) :
    (place p content >>= fun _ => place q content' >>= fun _ => addArtifacts [p, q] >>= k) =
      write [(p, content), (q, content')] >>= k := by
  simp [write]

end Builder
end ShaderDialect
