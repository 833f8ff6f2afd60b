import ShaderDialect.Config
import ShaderDialect.Proofs.Json.Compact

/-! The text that stands for what outputs depend on. Configurations have the same text exactly if
they ask for the same targets, paths, root signatures and compilation, with the same options of the
targets that they ask for; how the build is run is not in it. -/
namespace ShaderDialect

open List JsonTree

theorem Target.name_injective : Function.Injective Target.name := by
  intro t t'
  cases t <;> cases t' <;> decide

theorem Path.text_injective : Function.Injective Path.text := by
  rintro ⟨s⟩ ⟨s'⟩ h
  exact congrArg Path.mk h

section Texts
variable {α : Type} (text : α → String)

theorem numberFree_ofOption (x : Option α) : NumberFree (.ofOption (fun a => .str (text a)) x) := by
  cases x with
  | none => exact .null
  | some a => exact .str _

theorem numberFree_texts (xs : List α) : NumberFree (.arr (xs.map fun x => .str (text x))) := by
  refine .arr fun v hv => ?_
  obtain ⟨x, -, rfl⟩ := mem_map.1 hv
  exact .str _

variable {text}

theorem ofOption_str_inj (htext : Function.Injective text) {x y : Option α}
    (h : Json.ofOption (fun a => .str (text a)) x = .ofOption (fun a => .str (text a)) y) :
    x = y := by
  cases x with
  | none =>
    cases y with
    | none => rfl
    | some b => cases h
  | some a =>
    cases y with
    | none => cases h
    | some b => rw [htext (Json.str.inj h)]

theorem texts_inj (htext : Function.Injective text) {xs ys : List α}
    (h : xs.map (fun x => Json.str (text x)) = ys.map fun x => Json.str (text x)) : xs = ys :=
  eq_of_map_eq (fun _ _ _ _ he => htext (Json.str.inj he)) h

end Texts

theorem TargetOptions.numberFree_toJson (o : TargetOptions) : NumberFree o.toJson := by
  refine .obj ?_
  simp only [forall_mem_cons, not_mem_nil, false_implies, implies_true, and_true]
  exact ⟨.bool _, numberFree_ofOption _ _, .bool _, numberFree_texts id _, numberFree_ofOption id _⟩

theorem TargetOptions.toJson_inj {o o' : TargetOptions} (h : o.toJson = o'.toJson) : o = o' := by
  simp only [toJson, Json.obj.injEq, List.cons.injEq, Prod.mk.injEq, Json.bool.injEq,
    Json.arr.injEq, true_and, and_true] at h
  obtain ⟨hbuffers, hcompiler, hindexing, hargs, hmodel⟩ := h
  have hcompiler := ofOption_str_inj Path.text_injective hcompiler
  have hargs := texts_inj Function.injective_id hargs
  have hmodel := ofOption_str_inj Function.injective_id hmodel
  obtain ⟨_, _, _, _, _⟩ := o
  simp_all

namespace BuildConfig

/-- The options of the targets that a configuration asks for, by the names of the targets. -/
def listed (c : BuildConfig) : List (String × Json) :=
  (targetsByName.filter c.targets.contains).map fun t => (t.name, (c.options t).toJson)

theorem mem_targetsByName (t : Target) : t ∈ targetsByName := by
  cases t <;> decide

theorem listed_eq_iff {c c' : BuildConfig} (ht : c.targets = c'.targets) :
    c.listed = c'.listed ↔ ∀ t ∈ c.targets, c.options t = c'.options t := by
  rw [listed, listed, ← ht, map_inj_left]
  constructor
  · intro h t hmem
    have hpair := h t (mem_filter.2 ⟨mem_targetsByName t, contains_iff_mem.2 hmem⟩)
    exact TargetOptions.toJson_inj (Prod.mk.inj hpair).2
  · intro h t hmem
    rw [h t (contains_iff_mem.1 (mem_filter.1 hmem).2)]

/-- The value of which `arguments` is the text. -/
def value (c : BuildConfig) : Json :=
  .obj [("compile", .bool c.compile),
    ("compute_root_signature", .str c.signatures.compute),
    ("graphics_root_signature", .str c.signatures.graphics),
    ("include_paths", .arr (c.includePaths.map fun p => .str p.text)),
    ("out_dir", .str c.outDir.text),
    ("targets", .arr (c.targets.map fun t => .str t.name)),
    ("toolchain", .obj c.listed),
    ("version", .str "0.1.0")]

theorem arguments_eq (c : BuildConfig) : c.arguments = c.value.compact := rfl

theorem numberFree_value (c : BuildConfig) : NumberFree c.value := by
  have hlisted : NumberFree (.obj c.listed) := by
    refine .obj fun p hp => ?_
    obtain ⟨t, -, rfl⟩ := mem_map.1 hp
    exact (c.options t).numberFree_toJson
  refine .obj ?_
  simp only [forall_mem_cons, not_mem_nil, false_implies, implies_true, and_true]
  exact ⟨.bool _, .str _, .str _, numberFree_texts _ _, .str _, numberFree_texts _ _, hlisted,
    .str _⟩

/-- Configurations that ask for the same outputs. -/
structure AsksAlike (c c' : BuildConfig) : Prop where
  targets : c.targets = c'.targets
  includePaths : c.includePaths = c'.includePaths
  outDir : c.outDir = c'.outDir
  compile : c.compile = c'.compile
  graphics : c.signatures.graphics = c'.signatures.graphics
  compute : c.signatures.compute = c'.signatures.compute
  options : ∀ t ∈ c.targets, c.options t = c'.options t

theorem value_eq_iff {c c' : BuildConfig} : c.value = c'.value ↔ c.AsksAlike c' := by
  constructor
  · intro h
    simp only [value, Json.obj.injEq, List.cons.injEq, Prod.mk.injEq, Json.bool.injEq,
      Json.str.injEq, Json.arr.injEq, true_and, and_true] at h
    obtain ⟨hcompile, hcompute, hgraphics, hpaths, hout, htargets, hlisted⟩ := h
    have htargets := texts_inj Target.name_injective htargets
    exact ⟨htargets, texts_inj Path.text_injective hpaths, Path.text_injective hout, hcompile,
      hgraphics, hcompute, (listed_eq_iff htargets).1 hlisted⟩
  · intro h
    rw [value, h.compile, h.compute, h.graphics, h.includePaths, h.outDir, h.targets,
      (listed_eq_iff h.targets).2 h.options]
    rfl

theorem arguments_eq_of_asksAlike {c c' : BuildConfig} (h : c.AsksAlike c') :
    c.arguments = c'.arguments := by
  rw [arguments_eq, arguments_eq, value_eq_iff.2 h]

/-- Two configurations have the same text exactly if they ask for the same outputs. So of the
options only those of listed targets count, and how the build is run does not count at all. -/
theorem arguments_eq_iff (c : BuildConfig) :
    (∀ c' : BuildConfig, c.arguments = c'.arguments ↔ c.AsksAlike c') ∧
    ∀ (workers : Nat) (incremental : Bool) (cacheDir : Option Path)
      (toolchain : List (Target × TargetOptions)),
      (∀ t ∈ c.targets, c.options t = (toolchain.lookup t).getD .standard) →
      c.arguments =
        ({ c with workers, incremental, cacheDir, toolchain } : BuildConfig).arguments := by
  refine ⟨fun c' => ⟨fun h => ?_, arguments_eq_of_asksAlike⟩, ?_⟩
  · rw [arguments_eq, arguments_eq] at h
    exact value_eq_iff.1 (c.numberFree_value.compact_inj c'.numberFree_value h)
  · intro workers incremental cacheDir toolchain hoptions
    exact arguments_eq_of_asksAlike ⟨rfl, rfl, rfl, rfl, rfl, rfl, hoptions⟩

/-- A configuration with a target of its own options. -/
def vulkanWith (extraArgs : List String) : BuildConfig :=
  { BuildConfig.standard with
    targets := [.vulkan]
    toolchain := [(.vulkan, { TargetOptions.standard with extraArgs })] }

/-- Options of a target that is not listed make no difference, and neither do workers and caches; an
argument that is quoted as two does. -/
theorem arguments_eq_iff_vulkan :
    (vulkanWith ["-O"]).arguments =
      ({ vulkanWith ["-O"] with
        workers := 4
        incremental := true
        cacheDir := some ⟨"cache"⟩
        toolchain := [(.metal, ⟨none, true, true, none, []⟩),
          (.vulkan, { TargetOptions.standard with extraArgs := ["-O"] })] } :
        BuildConfig).arguments ∧
    (vulkanWith ["-O\",\"-g"]).arguments ≠ (vulkanWith ["-O", "-g"]).arguments := by
  refine ⟨(arguments_eq_iff _).2 _ _ _ _ (by decide), fun h => ?_⟩
  have hoptions := (((arguments_eq_iff _).1 _).1 h).options .vulkan (by decide)
  revert hoptions
  decide

end BuildConfig
end ShaderDialect
