import ShaderDialect.Proofs.Source.Loading

/-! What reading a source looks at. Step for step it goes on in the same way in any tree in which
the paths that it looks at lead to the same. -/
namespace ShaderDialect.Source

open List Success Relation

/-- The paths that are looked at in turn, until one leads to a file. -/
def tried (t : FileTree) : List Path → List Path
  | [] => []
  | p :: ps => p :: if t.isFile p then [] else tried t ps

section Trying
variable {t u : FileTree} {p : Path} {ps : List Path}

theorem mem_tried_of_find? (h : ps.find? t.isFile = some p) : p ∈ tried t ps := by
  induction ps with
  | nil => cases h
  | cons q ps ih =>
    rw [tried]
    cases hq : t.isFile q with
    | true =>
      rw [find?_cons_of_pos hq, Option.some.injEq] at h
      exact h ▸ mem_cons_self
    | false =>
      rw [find?_cons_of_neg (by simp [hq])] at h
      exact mem_cons_of_mem _ (by simpa using ih h)

/-- The first file is the same in another tree, if all paths up to it lead to files or not as
before. -/
theorem find?_eq_of_tried (h : ∀ p ∈ tried t ps, u.isFile p = t.isFile p) :
    ps.find? u.isFile = ps.find? t.isFile := by
  induction ps with
  | nil => rfl
  | cons q ps ih =>
    rw [tried, forall_mem_cons] at h
    obtain ⟨hq, hrest⟩ := h
    cases hfile : t.isFile q with
    | true => rw [find?_cons_of_pos hfile, find?_cons_of_pos (hq.trans hfile)]
    | false =>
      rw [hfile] at hq
      rw [find?_cons_of_neg (by simp [hq]), find?_cons_of_neg (by simp [hfile])]
      exact ih (by simpa [hfile] using hrest)

end Trying

/-- The paths that a file may have which a directive in a directory includes. -/
def candidates (paths : List Path) (dir : Option Path) (operand : String) : List Path :=
  match includeOperand? operand with
  | some name => (dir.toList ++ paths).map (·.joinName name)
  | none => []

variable {n : Nat}

namespace Reading

def looksAt (t : FileTree) (paths : List Path) (r : Reading) : List Path :=
  match r.files with
  | ⟨file, _, l :: _⟩ :: _ =>
    match l.token with
    | .directive "include" operand => tried t (candidates paths file.parent? operand)
    | _ => []
  | _ => []

/-- A path is looked at while a file is read, or is that of the file. -/
def Looks (t : FileTree) (paths : List Path) (input p : Path) : Prop :=
  p = input ∨ ∃ r, Reaches t paths input r ∧ p ∈ r.looksAt t paths

/-- The paths that are looked at from here on, if reading stops before a number of steps. -/
def looksAtAll? (t : FileTree) (paths : List Path) : Nat → Reading → Option (List Path)
  | 0, _ => none
  | n + 1, r =>
    match r.step t paths with
    | .error _ => some (r.looksAt t paths)
    | .ok r' =>
      if r.files = [] then some (r.looksAt t paths)
      else (r'.looksAtAll? t paths n).map (r.looksAt t paths ++ ·)

/-- A path leads to the same in another tree, as far as reading can tell. -/
structure SameAt (t u : FileTree) (p : Path) : Prop where
  isFile : u.isFile p = t.isFile p
  canonical : ∀ file, t.canonical p = .ok file → u.canonical p = .ok file
  read : ∀ file, t.canonical p = .ok file → u.read file = t.read file

variable {t u : FileTree} {paths : List Path} {input : Path} {r r' : Reading} {ps : List Path}

theorem mem_of_looksAtAll? (h : r.looksAtAll? t paths n = some ps) (hl : Leads t paths r r') :
    ∀ p ∈ r'.looksAt t paths, p ∈ ps := by
  induction n generalizing r ps with
  | zero => cases h
  | succ n ih =>
    rw [looksAtAll?] at h
    rcases hl.cases_head with rfl | ⟨r₁, ⟨hne, hstep⟩, hl⟩
    · intro p hp
      split at h
      · exact Option.some.inj h ▸ hp
      · split at h
        · exact Option.some.inj h ▸ hp
        · obtain ⟨ps', -, rfl⟩ := Option.map_eq_some_iff.1 h
          exact mem_append_left _ hp
    · simp only [hstep, if_neg hne] at h
      obtain ⟨ps', hps, rfl⟩ := Option.map_eq_some_iff.1 h
      exact fun p hp => mem_append_right _ (ih hps hl p hp)

/-- All paths that are looked at can be listed, if reading stops before a number of steps. -/
theorem Looks.mem {p : Path} (hp : Looks t paths input p)
    (h : (start t input).toOption.bind (looksAtAll? t paths n) = some ps) : p ∈ input :: ps := by
  rcases hp with rfl | ⟨r, ⟨r₀, hstart, hl⟩, hp⟩
  · exact mem_cons_self
  · rw [hstart] at h
    exact mem_cons_of_mem _ (mem_of_looksAtAll? h hl p hp)

section Following
variable {dir : Option Path} {loc : Loc} {operand : String}

/-- What following a directive adds to the texts that were read is found at a path that it looks
at. -/
theorem texts_of_follow (h : r.follow t paths dir loc operand = .ok r') : r'.texts = r.texts ∨
    ∃ p ∈ tried t (candidates paths dir operand), ∃ file, t.canonical p = .ok file ∧
      r'.texts = r.texts ++ [file] := by
  obtain ⟨name, found, file, hname, hfound, hc, -, ⟨-, rfl⟩ | ⟨-, h⟩⟩ := follow_eq_ok h
  · exact .inl rfl
  · obtain ⟨-, -, -, -, rfl⟩ := enter_eq_ok.1 h
    refine .inr ⟨found, ?_, file, hc, rfl⟩
    rw [candidates, hname]
    exact mem_tried_of_find? hfound

theorem follow_congr (h : ∀ p ∈ tried t (candidates paths dir operand), SameAt t u p) :
    r.follow u paths dir loc operand = r.follow t paths dir loc operand := by
  unfold follow
  cases hname : includeOperand? operand with
  | none => rfl
  | some name =>
    rw [candidates, hname] at h
    have hfind :
        findInclude? u (dir.toList ++ paths) name = findInclude? t (dir.toList ++ paths) name :=
      find?_eq_of_tried fun p hp => (h p hp).isFile
    dsimp only
    rw [hfind]
    cases hfound : findInclude? t (dir.toList ++ paths) name with
    | none => rfl
    | some found =>
      have hsame := h found (mem_tried_of_find? hfound)
      obtain ⟨hc, -⟩ := canonical_of_isFile (isFile_of_findInclude? hfound)
      dsimp only
      rw [hc, hsame.canonical _ hc]
      dsimp only [enter, FileTree.readText]
      rw [hsame.read _ hc]

end Following

/-- A step follows a directive, or it does not depend on the tree and reads no text. -/
theorem step_cases (r : Reading) :
    (∃ x : Except Failure Reading, (∀ t paths, r.step t paths = x) ∧
      ∀ r', x = .ok r' → r'.texts = r.texts) ∨
    ∃ (r₁ : Reading) (dir : Option Path) (loc : Loc) (operand : String),
      r₁.texts = r.texts ∧ ∀ t paths, r.step t paths = r₁.follow t paths dir loc operand ∧
        r.looksAt t paths = tried t (candidates paths dir operand) := by
  cases hf : r.files with
  | nil => exact .inl ⟨.ok r, by simp [step, hf], by simp +contextual⟩
  | cons f files =>
    obtain ⟨file, name, rest⟩ := f
    cases rest with
    | nil => exact .inl ⟨.ok { r with files }, by simp [step, hf], by simp +contextual [eq_comm]⟩
    | cons l ls =>
      cases hl : treatment l.token with
      | inclusion operand =>
        refine .inr ⟨{ r with files := ⟨file, name, ls⟩ :: files }, file.parent?, ⟨name, l.line⟩,
          operand, rfl, fun t paths => ⟨by rw [step_cons hf, hl], ?_⟩⟩
        simp [looksAt, hf, treatment_eq_inclusion.1 hl]
      | refused word => exact .inl ⟨_, fun t paths => by rw [step_cons hf, hl], by simp⟩
      | dropped | kept =>
        refine .inl ⟨_, fun t paths => by rw [step_cons hf, hl], ?_⟩
        rintro _ ⟨⟩
        rfl

theorem texts_of_step (h : r.step t paths = .ok r') : r'.texts = r.texts ∨
    ∃ p ∈ r.looksAt t paths, ∃ file, t.canonical p = .ok file ∧ r'.texts = r.texts ++ [file] := by
  rcases r.step_cases with ⟨x, hstep, htexts⟩ | ⟨r₁, dir, loc, operand, htexts, hstep⟩
  · exact .inl (htexts r' ((hstep t paths).symm.trans h))
  · obtain ⟨hfollow, hlooks⟩ := hstep t paths
    rw [hlooks, ← htexts]
    exact texts_of_follow (hfollow.symm.trans h)

/-- All texts are found at paths that are looked at. -/
theorem Reaches.exists_looks (h : Reaches t paths input r) :
    ∀ file ∈ r.texts, ∃ p, Looks t paths input p ∧ t.canonical p = .ok file := by
  obtain ⟨r₀, hstart, hleads⟩ := h
  induction hleads with
  | refl =>
    obtain ⟨file, text, ls, hc, -, -, rfl⟩ := start_eq_ok.1 hstart
    intro file' hfile
    obtain rfl := mem_singleton.1 hfile
    exact ⟨input, .inl rfl, hc⟩
  | tail hl hn ih =>
    rcases texts_of_step hn.2 with he | ⟨p, hp, file, hc, he⟩
    · rwa [he]
    · intro file' hfile
      rw [he, mem_append, mem_singleton] at hfile
      rcases hfile with hfile | rfl
      · exact ih file' hfile
      · exact ⟨p, .inr ⟨_, ⟨r₀, hstart, hl⟩, hp⟩, hc⟩

section Undisturbed
variable (h : ∀ p, Looks t paths input p → SameAt t u p)
include h

/-- Reading goes on in the same way where all paths that it looks at lead to the same. -/
theorem Reaches.step_eq (hr : Reaches t paths input r) : r.step u paths = r.step t paths := by
  rcases r.step_cases with ⟨x, hstep, -⟩ | ⟨r₁, dir, loc, operand, -, hstep⟩
  · rw [hstep, hstep]
  · rw [(hstep u paths).1, (hstep t paths).1]
    refine follow_congr fun p hp => h p (.inr ⟨r, hr, ?_⟩)
    rwa [(hstep t paths).2]

theorem start_eq {file : Path} (hc : t.canonical input = .ok file) :
    start u input = start t input := by
  have hsame := h input (.inl rfl)
  rw [start, start, hc, hsame.canonical file hc]
  dsimp only [enter, FileTree.readText]
  rw [hsame.read file hc]

end Undisturbed

/-- The source that has been read, once all files have been left. -/
def source (r : Reading) (input : Path) : Source := ⟨input.text, r.tokens, r.dependencies⟩

theorem Ends.load_eq_error {e : Failure} (h : Ends t paths input (.error e)) :
    load t paths input = .error e := by
  rcases load_ends t paths input with ⟨e', hload, hends⟩ | ⟨src, r, s, -, hends, -⟩
  · cases hends.unique h
    exact hload
  · cases hends.unique h

theorem Ends.load_eq_ok (h : Ends t paths input (.ok r)) :
    load t paths input = .ok (r.source input) := by
  rcases load_ends t paths input with
    ⟨e', -, hends⟩ | ⟨src, r', s, hload, hends, hs, htokens, hlisted⟩
  · cases hends.unique h
  · cases hends.unique h
    obtain ⟨_, _, _, -, -, -, hsrc⟩ := Source.load_eq_ok.1 hload
    have hname : src.name = input.text := by rw [hsrc]
    obtain ⟨name, tokens, dependencies⟩ := src
    rw [hload, source, ← hs.tokens, ← hs.listed, ← htokens, ← hlisted, ← hname]

/-- All files that a source is read from are found at paths that are looked at. -/
theorem exists_looks_of_load {src : Source} (h : load t paths input = .ok src) :
    ∀ file ∈ src.dependencies, ∃ p, Looks t paths input p ∧ t.canonical p = .ok file := by
  rcases load_ends t paths input with ⟨e, he, -⟩ | ⟨src', r, s, hload, hends, hs, -, hlisted⟩
  · cases he.symm.trans h
  · cases hload.symm.trans h
    intro file hfile
    rw [hlisted, hs.texts] at hfile
    exact hends.reaches.exists_looks file hfile

end Reading
end ShaderDialect.Source
