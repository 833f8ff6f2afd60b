import ShaderDialect.Config
import ShaderDialect.Tool

/-! Compilers that a project names. A name without a directory is kept as it is when the paths of
the project are resolved, so that it could be looked for on the search path. But only a target
without a compiler is: a compiler that is named is the file of that path, and where there is none it
is missing. -/
namespace ShaderDialect

namespace ProjectConfig
variable (base : Path)

theorem lookup_resolveCompiler (t : Target) (toolchain : List (Target × TargetOptions)) :
    (toolchain.map fun (t, o) => (t, resolveCompiler base o)).lookup t =
      (toolchain.lookup t).map (resolveCompiler base) := by
  induction toolchain with
  | nil => rfl
  | cons entry toolchain ih =>
    obtain ⟨t', o⟩ := entry
    simp only [List.map_cons, List.lookup_cons, ih]
    split <;> rfl

theorem options_resolvePaths (c : ProjectConfig) (t : Target) :
    (c.resolvePaths base).build.options t = resolveCompiler base (c.build.options t) := by
  simp only [resolvePaths, BuildConfig.options, lookup_resolveCompiler]
  cases c.build.toolchain.lookup t with
  | none => rfl
  | some o => rfl

theorem compiler_resolvePaths {c : ProjectConfig} {t : Target} {p : Path} {name : String}
    (hp : (c.build.options t).compiler = some p) (hname : p.components = [.name name]) :
    ((c.resolvePaths base).build.options t).compiler = some p := by
  simp [options_resolvePaths, resolveCompiler, hp, hname]

end ProjectConfig

namespace Tool
variable {m : Machine} {tree : FileTree} {target : Target} {p q : Path} {dirs : List Path}

theorem isFile_of_findIn? {program : String} (h : findIn? tree dirs program = some q) :
    tree.isFile q = true := List.find?_some h

/-- A compiler that a project names without a directory is not looked for: it is the file of that
name in the working directory, and missing if there is none. So of all that the search path has
under the name, no other file is ever taken. -/
theorem locate_bare (m : Machine) (tree : FileTree) (base : Path) (c : ProjectConfig)
    (target : Target) (p : Path) (name : String) (hp : (c.build.options target).compiler = some p)
    (hname : p.components = [.name name]) :
    let located := locate m tree target ((c.resolvePaths base).build.options target).compiler
    (∀ tool, located = .ok tool ↔ tree.isFile p = true ∧ tool = ⟨target, p⟩) ∧
    (tree.isFile p = false → located = .error (.environment target (.missing p))) ∧
    ∀ dirs found, findIn? tree dirs name = some found →
      (located = .ok ⟨target, found⟩ ↔ found = p) := by
  have hlocate : locate m tree target (some p) =
      if tree.isFile p then .ok ⟨target, p⟩ else .error (.environment target (.missing p)) := rfl
  rw [ProjectConfig.compiler_resolvePaths base hp hname, hlocate]
  refine ⟨fun tool => ?_, fun hmissing => by simp [hmissing], fun dirs found hfound => ?_⟩
  · split
    · next hfile => simp [hfile, eq_comm]
    · next hmissing => simp [hmissing]
  · have hfile : tree.isFile found = true := isFile_of_findIn? hfound
    split
    · next => simp [eq_comm]
    · next hmissing =>
      have hne : found ≠ p := by
        intro heq
        exact hmissing (heq ▸ hfile)
      simp [hne]

/-- A project whose compiler is in a directory of the search path only. -/
def pathProject : ProjectConfig :=
  { ProjectConfig.standard with build := { BuildConfig.standard with
      toolchain := [(.vulkan, { TargetOptions.standard with compiler := some ⟨"glslc"⟩ })] } }

def pathTree : FileTree where
  cwd := ["w"]
  nodes := [(["w"], .directory), (["w", "bin"], .directory), (["w", "bin", "glslc"], .file [] true)]

def pathMachine : Machine where
  environment := [("PATH", "bin")]
  tempDir := ⟨"/tmp"⟩
  run := fun tree _ _ => .ok (tree, ⟨true, [], []⟩)

theorem locate_bare_pathProject :
    findIn? pathTree (directories "bin") "glslc" = some ⟨"bin/glslc"⟩ ∧
    locate pathMachine pathTree .vulkan
        ((pathProject.resolvePaths ⟨"project"⟩).build.options .vulkan).compiler =
      .error (.environment .vulkan (.missing ⟨"glslc"⟩)) := by
  refine ⟨by decide +kernel, ?_⟩
  exact (locate_bare pathMachine pathTree ⟨"project"⟩ pathProject .vulkan ⟨"glslc"⟩ "glslc"
    (by decide +kernel) (by decide +kernel)).2.1 (by decide +kernel)

end Tool
end ShaderDialect
