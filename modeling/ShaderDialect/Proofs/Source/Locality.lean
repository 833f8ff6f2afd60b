import Mathlib.Data.List.Perm.Subperm
import ShaderDialect.Proofs.FileTree.Resolution
import ShaderDialect.Source

/-! What a source is read from: its files, and what the searches for them find. A tree that agrees
on these gives the same source. -/
namespace ShaderDialect.Source

open Splice FileTree List Success

inductive Event
  | token (t : Placed)
  /-- An include of a file. If it is spliced, the events of the file follow. -/
  | inclusion (file : Path) (spliced : Bool)
  deriving DecidableEq

@[simp] def Event.token? : Event → Option Placed
  | .token t => some t
  | .inclusion _ _ => none

/-- The file that an event includes. -/
@[simp] def Event.file? : Event → Option Path
  | .token _ => none
  | .inclusion file _ => some file

def opensBlock : Token → Bool
  | .directive name _ => (Stage.ofBlockDirective? name).isSome
  | _ => false

def closesBlock : Token → Bool
  | .directive name _ => name == "end"
  | _ => false

/-- Whether a token is for the readers of a source. -/
def isKept : Token → Bool
  | .directive name _ => !(["include", "define", "undef", "pragma"].contains name)
  | _ => true

theorem opensBlock_iff {token : Token} : opensBlock token = true ↔
    ∃ operand, token = .directive "vert" operand ∨ token = .directive "frag" operand ∨
      token = .directive "comp" operand := by
  cases token with
  | directive name operand =>
    simp only [opensBlock, Stage.ofBlockDirective?, Token.directive.injEq]
    split <;> simp_all
  | _ => simp [opensBlock]

theorem closesBlock_iff {token : Token} :
    closesBlock token = true ↔ ∃ operand, token = .directive "end" operand := by
  cases token <;> simp [closesBlock]

/-- The files that are not spliced again: now, and after the open shader block. -/
structure Scope where
  seen : List Path
  outside : Option (List Path)

def Splice.scope (s : Splice) : Scope := ⟨s.seen, s.outside⟩

def Scope.next (c : Scope) : Event → Scope
  | .token t =>
    if opensBlock t.token then { c with outside := some c.seen }
    else if closesBlock t.token then ⟨c.outside.getD c.seen, none⟩
    else c
  | .inclusion file spliced => if spliced then { c with seen := file :: c.seen } else c

/-- What becomes of a token when a source is spliced. -/
inductive Treatment
  | inclusion (operand : String)
  | refused (name : String)
  | dropped
  | kept

def treatment : Token → Treatment
  | .directive "include" operand => .inclusion operand
  | .directive "define" _ => .refused "define"
  | .directive "undef" _ => .refused "undef"
  | .directive "pragma" _ => .dropped
  | _ => .kept

variable {operand : String}

section Treatment
variable {token : Token}

theorem treatment_eq_inclusion :
    treatment token = .inclusion operand ↔ token = .directive "include" operand := by
  unfold treatment
  split <;> simp_all

theorem exists_of_treatment (h : treatment token = .dropped) :
    ∃ operand, token = .directive "pragma" operand := by
  unfold treatment at h
  split at h <;> simp_all

theorem treatment_of_ne (hi : ∀ operand, token ≠ .directive "include" operand)
    (hd : ∀ operand, token ≠ .directive "define" operand)
    (hu : ∀ operand, token ≠ .directive "undef" operand)
    (hp : ∀ operand, token ≠ .directive "pragma" operand) : treatment token = .kept := by
  unfold treatment
  split <;> simp_all

theorem isKept_iff : isKept token = true ↔ treatment token = .kept := by
  unfold treatment
  split
  · simp [isKept]
  · simp [isKept]
  · simp [isKept]
  · simp [isKept]
  · next hi hd hu hp =>
    cases token with
    | directive name operand => simp_all [isKept]
    | _ => simp [isKept]

end Treatment

def Splice.keep (s : Splice) (p : Placed) : Splice :=
  { s with
    tokens := s.tokens.push p
    seen := (s.scope.next (.token p)).seen
    outside := (s.scope.next (.token p)).outside }

variable {loc : Loc} {ls : List Lexeme} {fuel : Nat} {text : String}

section Including
variable {t : FileTree} {paths : List Path} {dir : Option Path}
  {nested : String → String → Option Path → Splice → Except Failure Splice} {s s' : Splice}
  {name : String} {l : Lexeme}

/-- A file is open, and will not be spliced again in the present scope. -/
def Splice.enter (s : Splice) (file : Path) : Splice :=
  { s with
    seen := file :: s.seen
    dependencies := if file ∈ s.dependencies then s.dependencies else s.dependencies ++ [file]
    openFiles := file :: s.openFiles }

theorem includeFile_eq_ok :
    includeFile t paths nested dir loc operand s = .ok s' ↔
      ∃ file found canonical, includeOperand? operand = some file ∧
        findInclude? t (dir.toList ++ paths) file = some found ∧ t.canonical found = .ok canonical ∧
        canonical ∉ s.openFiles ∧
        (canonical ∈ s.seen ∧ s' = s ∨ canonical ∉ s.seen ∧ ∃ text s₁,
          t.readText canonical = .ok text ∧
          nested found.text text canonical.parent? (s.enter canonical) = .ok s₁ ∧
          s' = { s₁ with openFiles := s.openFiles }) := by
  rw [includeFile]
  cases ho : includeOperand? operand with
  | none => simp
  | some file =>
    cases hf : findInclude? t (dir.toList ++ paths) file with
    | none => simp [hf]
    | some found =>
      cases hc : t.canonical found with
      | error e => simp [hf, hc]
      | ok canonical =>
        by_cases hopen : canonical ∈ s.openFiles
        · simp [hf, hc, hopen]
        · by_cases hseen : canonical ∈ s.seen
          · simp [hf, hc, hopen, hseen]
            exact eq_comm
          · cases hr : t.readText canonical with
            | error e => simp [hf, hc, hopen, hseen, hr]
            | ok text =>
              simp [hf, hc, hopen, hseen, hr]
              exact exists_congr fun s₁ => and_congr Iff.rfl eq_comm

theorem spliceLexeme_eq : spliceLexeme t paths nested name dir s l =
    match treatment l.token with
    | .inclusion operand => includeFile t paths nested dir ⟨name, l.line⟩ operand s
    | .refused word => .error (.source ⟨name, l.line⟩ (.unsupportedDirective word))
    | .dropped => .ok s
    | .kept => .ok (s.keep ⟨l.token, ⟨name, l.line⟩⟩) := by
  unfold spliceLexeme
  split
  · next ht => simp [ht, treatment]
  · next ht => simp [ht, treatment]
  · next ht => simp [ht, treatment]
  · next ht => simp [ht, treatment]
  · next ht => rw [ht]; rfl
  · next ht => rw [ht]; rfl
  · next ht => rw [ht]; rfl
  · next operand ht =>
    have hend :
        s.scope.next (.token ⟨l.token, ⟨name, l.line⟩⟩) = ⟨s.outside.getD s.seen, none⟩ := by
      rw [ht]
      rfl
    rw [ht] at hend ⊢
    simp only [treatment, keep, hend]
    cases s.outside <;> simp
  · next hi hd hu hp hv hf hc he =>
    have hopens : ¬ opensBlock l.token := by
      rw [opensBlock_iff]
      rintro ⟨operand, ht | ht | ht⟩
      · exact hv operand ht
      · exact hf operand ht
      · exact hc operand ht
    have hcloses : ¬ closesBlock l.token := by
      rw [closesBlock_iff]
      rintro ⟨operand, ht⟩
      exact he operand ht
    simp [treatment_of_ne hi hd hu hp, keep, Scope.next, hopens, hcloses, scope]

/-- What has been read stays read, what is added can be read, and what is open stays open. -/
structure Splice.Passes (t : FileTree) (s s' : Splice) : Prop where
  dependencies : s.dependencies ⊆ s'.dependencies
  added : ∀ p ∈ s'.dependencies, p ∈ s.dependencies ∨ ∃ text, t.readText p = .ok text
  openFiles : s'.openFiles = s.openFiles

theorem passes_of_eq (hd : s'.dependencies = s.dependencies)
    (ho : s'.openFiles = s.openFiles) : s.Passes t s' :=
  ⟨fun _ h => hd ▸ h, fun _ h => .inl (hd ▸ h), ho⟩

theorem Splice.Passes.trans {s'' : Splice} (h : s.Passes t s') (h' : s'.Passes t s'') :
    s.Passes t s'' :=
  ⟨fun _ hp => h'.dependencies (h.dependencies hp),
    fun p hp => (h'.added p hp).elim (h.added p) .inr, h'.openFiles.trans h.openFiles⟩

theorem mem_enter (s : Splice) (file : Path) {p : Path} :
    p ∈ (s.enter file).dependencies ↔ p ∈ s.dependencies ∨ p = file := by
  simp only [enter]
  split
  · next h => exact ⟨.inl, fun hp => hp.elim id fun hp => hp ▸ h⟩
  · simp

theorem includeFile_passes
    (hn : ∀ name text dir s s', nested name text dir s = .ok s' → s.Passes t s')
    (h : includeFile t paths nested dir loc operand s = .ok s') : s.Passes t s' := by
  obtain ⟨_, _, file, -, -, -, -, ⟨-, rfl⟩ | ⟨-, text, s₁, hr, hs, rfl⟩⟩ := includeFile_eq_ok.1 h
  · exact passes_of_eq rfl rfl
  · have hs := hn _ _ _ _ _ hs
    refine ⟨fun p hp => hs.dependencies ((mem_enter s file).2 (.inl hp)), fun p hp => ?_, rfl⟩
    rcases hs.added p hp with hp | hp
    · rcases (mem_enter s file).1 hp with hp | rfl
      · exact .inl hp
      · exact .inr ⟨text, hr⟩
    · exact .inr hp

theorem spliceLexeme_passes
    (hn : ∀ name text dir s s', nested name text dir s = .ok s' → s.Passes t s')
    (h : spliceLexeme t paths nested name dir s l = .ok s') : s.Passes t s' := by
  rw [spliceLexeme_eq] at h
  split at h
  · exact includeFile_passes hn h
  · cases h
  · cases h
    exact passes_of_eq rfl rfl
  · cases h
    exact passes_of_eq rfl rfl

theorem foldlM_passes (hn : ∀ name text dir s s', nested name text dir s = .ok s' → s.Passes t s')
    (h : ls.foldlM (spliceLexeme t paths nested name dir) s = .ok s') : s.Passes t s' := by
  induction ls generalizing s with
  | nil =>
    cases h
    exact passes_of_eq rfl rfl
  | cons l ls ih =>
    rw [foldlM_cons, bind_eq_ok] at h
    obtain ⟨s₁, h₁, h⟩ := h
    exact (spliceLexeme_passes hn h₁).trans (ih h)

theorem spliceText_passes (h : spliceText t paths fuel name text dir s = .ok s') :
    s.Passes t s' := by
  induction fuel generalizing name text dir s s' with
  | zero => cases h
  | succ fuel ih =>
    rw [spliceText] at h
    split at h
    · cases h
    · exact foldlM_passes (fun _ _ _ _ _ => ih) h

end Including

def included (text : String) : List String :=
  match tokenize text with
  | .error _ => []
  | .ok ls => ls.filterMap fun l =>
    match l.token with
    | .directive "include" operand => includeOperand? operand
    | _ => none

variable {file : String}

theorem mem_included (h : tokenize text = .ok ls) {l : Lexeme} (hl : l ∈ ls)
    (ht : l.token = .directive "include" operand) (ho : includeOperand? operand = some file) :
    file ∈ included text := by
  simp only [included, h, mem_filterMap]
  exact ⟨l, hl, by simp [ht, ho]⟩

/-- Two trees find the same files for the includes of some files. -/
def SearchesAgree (t t' : FileTree) (paths files : List Path) : Prop :=
  ∀ p ∈ files, ∀ text, t.readText p = .ok text → ∀ file ∈ included text,
    findInclude? t' (p.parent?.toList ++ paths) file =
      findInclude? t (p.parent?.toList ++ paths) file

/-- Two trees agree on files and on what is found for their includes. -/
structure Agrees (t t' : FileTree) (paths files : List Path) : Prop where
  cwd : t'.cwd = t.cwd
  contents : ∀ p ∈ files, t'.read p = t.read p
  searches : SearchesAgree t t' paths files

/-- All but the outermost of some files are different files of a tree. -/
structure Opened (t : FileTree) (files : List Path) : Prop where
  ne_nil : files ≠ []
  nodup : files.dropLast.Nodup
  subset : files.dropLast ⊆ t.nodes.map fun n => FileTree.pathOf n.1

theorem Opened.length_le {t : FileTree} {files : List Path} (h : Opened t files) :
    files.length ≤ t.nodes.length + 1 := by
  have hl := (subperm_of_subset h.nodup h.subset).length_le
  simp only [length_dropLast, length_map] at hl
  omega

theorem Opened.cons {t : FileTree} {files : List Path} (h : Opened t files) {file : Path}
    (hn : file ∉ files) (hm : file ∈ t.nodes.map fun n => pathOf n.1) :
    Opened t (file :: files) := by
  refine ⟨cons_ne_nil _ _, ?_, ?_⟩ <;> rw [dropLast_cons_of_ne_nil h.ne_nil]
  · exact nodup_cons.2 ⟨fun hf => hn (dropLast_subset _ hf), h.nodup⟩
  · exact cons_subset.2 ⟨hm, h.subset⟩

section Agreeing
variable {t t' : FileTree} {paths files : List Path} {p : Path} {src : Source}

theorem canonical_of_isFile (h : t.isFile p = true) :
    t.canonical p = .ok (pathOf (t.keyOf p)) ∧
      pathOf (t.keyOf p) ∈ t.nodes.map fun n => pathOf n.1 := by
  obtain ⟨content, hr⟩ := isFile_iff.1 h
  obtain ⟨hr, x, hn⟩ := read_eq_ok.1 hr
  refine ⟨by simp [canonical, find_of_resolve hr], ?_⟩
  rw [node?] at hn
  split at hn
  · cases hn
  · obtain ⟨before, after, hnodes, -⟩ := lookup_eq_some_iff.1 hn
    rw [hnodes]
    exact mem_map.2 ⟨_, mem_append_right _ mem_cons_self, rfl⟩

theorem isFile_of_findInclude? {dirs : List Path} {found : Path}
    (h : findInclude? t dirs file = some found) : t.isFile found = true := find?_some h

variable {dir : Option Path} {s s' : Splice}

/-- What one lexeme adds, it adds in both trees, if nested files do. -/
theorem includeFile_agrees (hA : Agrees t t' paths files)
    {nested nested' : String → String → Option Path → Splice → Except Failure Splice}
    (hp : ∀ name text dir s s', nested name text dir s = .ok s' → s.Passes t s')
    (hn : ∀ name text dir s s', nested name text dir s = .ok s' → s'.dependencies ⊆ files →
      (∀ file ∈ included text,
        findInclude? t' (dir.toList ++ paths) file = findInclude? t (dir.toList ++ paths) file) →
      Opened t' s.openFiles → t'.nodes.length + 2 ≤ fuel + s.openFiles.length →
      nested' name text dir s = .ok s') (h : includeFile t paths nested dir loc operand s = .ok s')
    (hd : s'.dependencies ⊆ files) (hsearch : ∀ file, includeOperand? operand = some file →
      findInclude? t' (dir.toList ++ paths) file = findInclude? t (dir.toList ++ paths) file)
    (hopen : Opened t' s.openFiles) (hfuel : t'.nodes.length + 2 ≤ fuel + 1 + s.openFiles.length) :
    includeFile t' paths nested' dir loc operand s = .ok s' := by
  obtain ⟨file, found, canonical, ho, hf, hc, hnot, h⟩ := includeFile_eq_ok.1 h
  have hf' := (hsearch file ho).trans hf
  obtain ⟨hc', hmem⟩ := canonical_of_isFile (isFile_of_findInclude? hf')
  rw [keyOf_congr hA.cwd] at hc' hmem
  obtain rfl : pathOf (t.keyOf found) = canonical := by
    have := (canonical_of_isFile (isFile_of_findInclude? hf)).1
    rw [hc] at this
    exact (Except.ok.inj this).symm
  refine includeFile_eq_ok.2 ⟨file, found, _, ho, hf', hc', hnot, ?_⟩
  rcases h with ⟨hs, rfl⟩ | ⟨hs, text, s₁, hr, hs₁, rfl⟩
  · exact .inl ⟨hs, rfl⟩
  · have hin := hd ((hp _ _ _ _ _ hs₁).dependencies ((mem_enter s _).2 (.inr rfl)))
    have hr' : t'.readText (pathOf (t.keyOf found)) = .ok text := by
      rw [readText, hA.contents _ hin]
      exact hr
    refine .inr ⟨hs, text, s₁, hr', hn _ _ _ _ _ hs₁ hd (hA.searches _ hin text hr)
      (hopen.cons hnot hmem) ?_, rfl⟩
    simp only [enter, length_cons]
    omega

theorem spliceText_agrees (hA : Agrees t t' paths files) {fuel' : Nat} {name : String}
    (h : spliceText t paths fuel name text dir s = .ok s') (hd : s'.dependencies ⊆ files)
    (hsearch : ∀ file ∈ included text,
      findInclude? t' (dir.toList ++ paths) file = findInclude? t (dir.toList ++ paths) file)
    (hopen : Opened t' s.openFiles) (hfuel : t'.nodes.length + 2 ≤ fuel' + s.openFiles.length) :
    spliceText t' paths fuel' name text dir s = .ok s' := by
  -- Open files are different files of the other tree, so its fuel lasts as well.
  induction fuel generalizing fuel' name text dir s s' with
  | zero => cases h
  | succ fuel ih =>
    obtain ⟨fuel', rfl⟩ : ∃ n, fuel' = n + 1 := ⟨fuel' - 1, by have := hopen.length_le; omega⟩
    rw [spliceText] at h ⊢
    cases hls : tokenize text with
    | error e => simp [hls] at h
    | ok ls =>
      simp only [hls] at h ⊢
      have hl : ∀ l ∈ ls, ∀ operand file, l.token = .directive "include" operand →
          includeOperand? operand = some file →
          findInclude? t' (dir.toList ++ paths) file = findInclude? t (dir.toList ++ paths) file :=
        fun l hl operand file ht ho => hsearch file (mem_included hls hl ht ho)
      clear hls hsearch
      induction ls generalizing s with
      | nil => exact h
      | cons l ls ihl =>
        rw [foldlM_cons, bind_eq_ok] at h ⊢
        obtain ⟨s₁, h₁, h⟩ := h
        have hp := spliceLexeme_passes (fun _ _ _ _ _ => spliceText_passes) h₁
        have hrest := foldlM_passes (fun _ _ _ _ _ => spliceText_passes) h
        have hd₁ : s₁.dependencies ⊆ files := fun p hp => hd (hrest.dependencies hp)
        refine ⟨s₁, ?_, ihl (hp.openFiles ▸ hopen) (hp.openFiles ▸ hfuel) h
          fun l hl' => hl l (mem_cons_of_mem _ hl')⟩
        rw [spliceLexeme_eq] at h₁ ⊢
        cases hrole : treatment l.token with
        | inclusion operand =>
          rw [hrole] at h₁
          exact includeFile_agrees hA (fun _ _ _ _ _ => spliceText_passes)
            (fun _ _ _ _ _ h hd hs ho hf => ih h hd hs ho hf) h₁ hd₁
            (fun file ho => hl l mem_cons_self operand file (treatment_eq_inclusion.1 hrole) ho)
            hopen hfuel
        | _ => simpa only [hrole] using h₁

/-- Nothing has been read but the file that a source starts with. -/
def Splice.opening (file : Path) : Splice :=
  { tokens := #[], dependencies := [file], seen := [file], openFiles := [file], outside := none }

theorem load_eq_ok : load t paths p = .ok src ↔
    ∃ file text s, t.canonical p = .ok file ∧ t.readText file = .ok text ∧
      spliceText t paths (depth t) p.text text file.parent? (.opening file) = .ok s ∧
      src = { name := p.text, tokens := s.tokens.toList, dependencies := s.dependencies } := by
  rw [load]
  cases t.canonical p with
  | error e => simp
  | ok file =>
    cases hr : t.readText file with
    | error e => simp [hr]
    | ok text =>
      simp only [hr, bind_eq_ok, pure_eq_ok, Except.ok.injEq, exists_and_left, exists_eq_left',
        opening]
      exact exists_congr fun s => and_congr Iff.rfl eq_comm

theorem readText_of_load (h : load t paths p = .ok src) :
    ∀ d ∈ src.dependencies, ∃ text, t.readText d = .ok text := by
  obtain ⟨file, text, s, -, hr, hs, rfl⟩ := load_eq_ok.1 h
  intro d hd
  rcases (spliceText_passes hs).added d hd with hd | hd
  · obtain rfl := mem_singleton.1 hd
    exact ⟨text, hr⟩
  · exact hd

/-- A source is determined by the files that it is read from and by what their includes find. -/
theorem load_agrees (h : load t paths p = .ok src) (hA : Agrees t t' paths src.dependencies)
    (hc : t'.canonical p = t.canonical p) : load t' paths p = .ok src := by
  obtain ⟨file, text, s, hcan, hr, hs, rfl⟩ := load_eq_ok.1 h
  have hin := (spliceText_passes hs).dependencies mem_cons_self
  have hr' : t'.readText file = .ok text := by
    rw [readText, hA.contents file hin]
    exact hr
  refine load_eq_ok.2 ⟨file, text, s, hc.trans hcan, hr',
    spliceText_agrees hA hs (fun _ h => h) (hA.searches file hin text hr) ?_ ?_, rfl⟩
  · exact ⟨cons_ne_nil _ _, by simp [opening], by simp [opening]⟩
  · simp only [opening, depth, length_singleton]
    omega

end Agreeing

end ShaderDialect.Source
