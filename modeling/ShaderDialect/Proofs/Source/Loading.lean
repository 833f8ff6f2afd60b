import Mathlib.Logic.Relation
import ShaderDialect.Proofs.Source.Events

/-! Reading a source step by step, with no bound on how deep includes are nested. From every file
the steps come to an end, which is what loading the file gives, and the files whose texts were read
on the way are the dependencies of the source. -/
namespace ShaderDialect.Source

open List Relation

/-- A file that is being spliced, as it is named in messages, and what is left to read of it. -/
structure OpenFile where
  file : Path
  name : String
  rest : List Lexeme
  deriving DecidableEq

deriving instance DecidableEq for Scope

structure Reading where
  /-- Files that are being spliced, innermost first. -/
  files : List OpenFile
  tokens : List Placed
  scope : Scope
  /-- Files whose texts were read, one after the other. -/
  texts : List Path
  deriving DecidableEq

variable {found root : Path} {dir : Option Path} {loc : Loc} {operand name text : String}
  {ls : List Lexeme} {l : Lexeme} {r₀ : Reading} {x' : Except Failure Reading}

namespace Reading

/-- Reads the text of a file, which was found at some path. -/
def enter (t : FileTree) (found file : Path) (r : Reading) : Except Failure Reading :=
  match t.readText file with
  | .error e => .error (.pathIo found e)
  | .ok text =>
    match tokenize text with
    | .error e => .error (.source ⟨found.text, e.line⟩ (.scan e.fault))
    | .ok ls => .ok
      { files := ⟨file, found.text, ls⟩ :: r.files
        tokens := r.tokens
        scope := r.scope.next (.inclusion file true)
        texts := r.texts ++ [file] }

/-- Follows an include directive in a file of some directory. -/
def follow (t : FileTree) (paths : List Path) (dir : Option Path) (loc : Loc) (operand : String)
    (r : Reading) : Except Failure Reading :=
  match includeOperand? operand with
  | none => .error (.source loc (.malformedInclude operand))
  | some name =>
    match findInclude? t (dir.toList ++ paths) name with
    | none => .error (.source loc (.missingInclude name))
    | some found =>
      match t.canonical found with
      | .error e => .error (.pathIo found e)
      | .ok file =>
        if file ∈ r.files.map OpenFile.file then .error (.source loc (.includeCycle name))
        else if file ∈ r.scope.seen then .ok r
        else r.enter t found file

def keep (r : Reading) (token : Placed) : Reading :=
  { r with tokens := r.tokens ++ [token], scope := r.scope.next (.token token) }

/-- Reads one lexeme of the innermost file, or leaves the file if it has no more. -/
def step (t : FileTree) (paths : List Path) (r : Reading) : Except Failure Reading :=
  match r.files with
  | [] => .ok r
  | ⟨_, _, []⟩ :: files => .ok { r with files }
  | ⟨file, name, l :: ls⟩ :: files =>
    let r := { r with files := ⟨file, name, ls⟩ :: files }
    let loc : Loc := ⟨name, l.line⟩
    match l.token with
    | .directive "include" operand => r.follow t paths file.parent? loc operand
    | .directive "define" _ => .error (.source loc (.unsupportedDirective "define"))
    | .directive "undef" _ => .error (.source loc (.unsupportedDirective "undef"))
    | .directive "pragma" _ => .ok r
    | token => .ok (r.keep ⟨token, loc⟩)

def blank : Reading := { files := [], tokens := [], scope := ⟨[], none⟩, texts := [] }

def start (t : FileTree) (p : Path) : Except Failure Reading :=
  match t.canonical p with
  | .error e => .error (.pathIo p e)
  | .ok file => blank.enter t p file

section
variable (t : FileTree) (paths : List Path)

/-- One reading comes right after another. A source of which all files have been left is
complete. -/
def Next (r r' : Reading) : Prop := r.files ≠ [] ∧ r.step t paths = .ok r'

/-- Reading stops: all files have been left, or the next step fails. -/
def Stops (r : Reading) : Except Failure Reading → Prop
  | .ok r' => r.files = [] ∧ r' = r
  | .error e => r.step t paths = .error e

/-- Some number of steps leads from one reading to another. -/
def Leads : Reading → Reading → Prop := ReflTransGen (Next t paths)

/-- Reading a file comes to an end after some number of steps. -/
def Ends (p : Path) (result : Except Failure Reading) : Prop :=
  match start t p with
  | .error e => result = .error e
  | .ok r₀ => ∃ r, Leads t paths r₀ r ∧ r.Stops t paths result

def Reaches (p : Path) (r : Reading) : Prop := ∃ r₀, start t p = .ok r₀ ∧ Leads t paths r₀ r

/-- The next lexeme includes a file that is still being spliced. -/
def AtCycle (r : Reading) : Prop :=
  ∃ current name l ls files operand found file, r.files = ⟨current, name, l :: ls⟩ :: files ∧
    l.token = .directive "include" operand ∧ Finds t paths current.parent? operand found file ∧
    file ∈ r.files.map OpenFile.file

end

variable {t : FileTree} {paths : List Path} {r r' : Reading} {s : Splice} {file p : Path}

/-- The files whose texts were read, each in the place of its first reading. -/
def dependencies (r : Reading) : List Path :=
  r.texts.foldl (fun files p => if p ∈ files then files else files ++ [p]) []

/-- A splice has got as far as a reading. -/
structure Shows (r : Reading) (s : Splice) : Prop where
  tokens : s.tokens.toList = r.tokens
  scope : s.scope = r.scope
  openFiles : s.openFiles = r.files.map OpenFile.file
  listed : s.dependencies = r.dependencies
  first : s.dependencies.head? = r.texts.head?
  nodup : s.dependencies.Nodup
  texts : ∀ p, p ∈ s.dependencies ↔ p ∈ r.texts

theorem enter_eq_ok : r.enter t found file = .ok r' ↔
    ∃ text ls, t.readText file = .ok text ∧ tokenize text = .ok ls ∧ r' =
      { files := ⟨file, found.text, ls⟩ :: r.files
        tokens := r.tokens
        scope := r.scope.next (.inclusion file true)
        texts := r.texts ++ [file] } := by
  rw [enter]
  cases hr : t.readText file with
  | error e => simp
  | ok text =>
    cases hls : tokenize text with
    | error e => simp [hls]
    | ok ls => simp [hls, eq_comm]

/-- A directive finds a file that is not open, which has been seen or is entered. -/
theorem follow_eq_ok (h : r.follow t paths dir loc operand = .ok r') :
    ∃ name found file, includeOperand? operand = some name ∧
      findInclude? t (dir.toList ++ paths) name = some found ∧ t.canonical found = .ok file ∧
      file ∉ r.files.map OpenFile.file ∧
      (file ∈ r.scope.seen ∧ r' = r ∨ file ∉ r.scope.seen ∧ r.enter t found file = .ok r') := by
  unfold follow at h
  split at h
  · cases h
  · next name hname =>
    split at h
    · cases h
    · next found hfound =>
      split at h
      · cases h
      · next file hc =>
        split_ifs at h with hopen hseen
        · exact ⟨name, found, file, hname, hfound, hc, hopen, .inl ⟨hseen, (Except.ok.inj h).symm⟩⟩
        · exact ⟨name, found, file, hname, hfound, hc, hopen, .inr ⟨hseen, h⟩⟩

theorem Shows.enter (h : r.Shows s) :
    Shows
      { files := ⟨file, name, ls⟩ :: r.files
        tokens := r.tokens
        scope := r.scope.next (.inclusion file true)
        texts := r.texts ++ [file] } (s.enter file) := by
  refine ⟨h.tokens, ?_, congrArg (file :: ·) h.openFiles, ?_, ?_, ?_, fun p => ?_⟩
  · rw [← h.scope]
    rfl
  · rw [dependencies, foldl_append, ← dependencies, ← h.listed]
    rfl
  · rw [head?_append, ← h.first]
    simp only [Splice.enter]
    split
    · next hm =>
      obtain ⟨d, ds, hd⟩ := exists_cons_of_ne_nil (ne_nil_of_mem hm)
      simp [hd]
    · rw [head?_append]
  · simp only [Splice.enter]
    split
    · exact h.nodup
    · next hm => exact nodup_append.2 ⟨h.nodup, by simp, by
        rintro p hp q hq rfl
        exact hm (mem_singleton.1 hq ▸ hp)⟩
  · rw [mem_enter, h.texts p, mem_append, mem_singleton]

theorem Shows.keep (h : r.Shows s) (p : Placed) : (r.keep p).Shows (s.keep p) :=
  ⟨by simp [Splice.keep, Reading.keep, h.tokens], by rw [Reading.keep, ← h.scope]; rfl, h.openFiles,
    h.listed,
    h.first, h.nodup, h.texts⟩

/-- Reading leads on to where a splice gets, with some files open, or it fails as the splice
does. -/
def Arrives (t : FileTree) (paths : List Path) (r : Reading) (files : List OpenFile) :
    Except Failure Splice → Prop
  | .ok s => ∃ r', Leads t paths r r' ∧ r'.files = files ∧ r'.Shows s
  | .error e => ∃ r', Leads t paths r r' ∧ r'.step t paths = .error e

section Arriving
variable {files files' : List OpenFile} {x : Except Failure Splice}

theorem Arrives.of_next (h : r.Next t paths r') (hx : r'.Arrives t paths files x) :
    r.Arrives t paths files x := by
  cases x with
  | error e =>
    obtain ⟨r₁, hl, he⟩ := hx
    exact ⟨r₁, .head h hl, he⟩
  | ok s =>
    obtain ⟨r₁, hl, hs⟩ := hx
    exact ⟨r₁, .head h hl, hs⟩

theorem Arrives.bind {k : Splice → Except Failure Splice} (hx : r.Arrives t paths files x)
    (hk : ∀ (r' : Reading) s, r'.files = files → r'.Shows s → r'.Arrives t paths files' (k s)) :
    r.Arrives t paths files' (x >>= k) := by
  cases x with
  | error e => exact hx
  | ok s =>
    obtain ⟨r₁, hl, hf, hs⟩ := hx
    change r.Arrives t paths files' (k s)
    have hr := hk r₁ s hf hs
    cases hks : k s with
    | error e =>
      rw [hks] at hr
      obtain ⟨r₂, hl₂, he⟩ := hr
      exact ⟨r₂, hl.trans hl₂, he⟩
    | ok s₂ =>
      rw [hks] at hr
      obtain ⟨r₂, hl₂, hs₂⟩ := hr
      exact ⟨r₂, hl.trans hl₂, hs₂⟩

theorem arrives_leave {file : Path} (hf : r.files = ⟨file, name, []⟩ :: files) (hs : r.Shows s) :
    r.Arrives t paths files (.ok { s with openFiles := files.map OpenFile.file }) := by
  have hstep : r.step t paths = .ok { r with files } := by simp [step, hf]
  exact ⟨_, .single ⟨by simp [hf], hstep⟩, rfl,
    hs.tokens, hs.scope, rfl, hs.listed, hs.first, hs.nodup, hs.texts⟩

theorem step_cons {file : Path} (hf : r.files = ⟨file, name, l :: ls⟩ :: files) : r.step t paths =
    let r' : Reading := { r with files := ⟨file, name, ls⟩ :: files }
    match treatment l.token with
    | .inclusion operand => r'.follow t paths file.parent? ⟨name, l.line⟩ operand
    | .refused word => .error (.source ⟨name, l.line⟩ (.unsupportedDirective word))
    | .dropped => .ok r'
    | .kept => .ok (r'.keep ⟨l.token, ⟨name, l.line⟩⟩) := by
  simp only [step, hf]
  split
  · next ht => simp [ht, treatment]
  · next ht => simp [ht, treatment]
  · next ht => simp [ht, treatment]
  · next ht => simp [ht, treatment]
  · next hi hd hu hp => rw [treatment_of_ne hi hd hu hp]

theorem spliceText_of_scan {fuel : Nat} (hfuel : 0 < fuel) {e : ScanError}
    (h : tokenize text = .error e) :
    spliceText t paths fuel name text dir s = .error (.source ⟨name, e.line⟩ (.scan e.fault)) := by
  obtain ⟨n, rfl⟩ : ∃ n, fuel = n + 1 := ⟨fuel - 1, by omega⟩
  simp [spliceText, h]

section Splicing
variable {fuel : Nat}
  (ih : ∀ {found file : Path} {text : String} {ls : List Lexeme} {files : List OpenFile}
    {r : Reading} {s : Splice}, tokenize text = .ok ls →
    r.files = ⟨file, found.text, ls⟩ :: files → r.Shows s → Opened t (r.files.map OpenFile.file) →
    t.nodes.length + 2 ≤ fuel + r.files.length →
    r.Arrives t paths (⟨file, found.text, []⟩ :: files)
      (spliceText t paths fuel found.text text file.parent? s))
include ih

/-- A file that is entered is read to its end and left. -/
theorem arrives_enter (hne : r₀.files ≠ []) (hstep : r₀.step t paths = r.enter t found file)
    (hr : t.readText file = .ok text) (hs : r.Shows s)
    (ho : Opened t (file :: r.files.map OpenFile.file))
    (hfuel : t.nodes.length + 2 ≤ fuel + 1 + r.files.length) :
    r₀.Arrives t paths r.files
      (spliceText t paths fuel found.text text file.parent? (s.enter file) >>= fun s' =>
        .ok { s' with openFiles := s.openFiles }) := by
  cases hls : tokenize text with
  | error e =>
    have hlen := ho.length_le
    rw [length_cons, length_map] at hlen
    rw [spliceText_of_scan (by omega) hls]
    exact ⟨r₀, .refl, by simp [hstep, enter, hr, hls]⟩
  | ok ls =>
    have hnext : r₀.Next t paths _ :=
      ⟨hne, hstep.trans (enter_eq_ok.2 ⟨text, ls, hr, hls, rfl⟩)⟩
    refine Arrives.of_next hnext (Arrives.bind (ih hls rfl hs.enter ho ?_) fun r' s' hf hs' => ?_)
    · simp only [length_cons]
      omega
    · rw [hs.openFiles]
      exact arrives_leave hf hs'

theorem arrives_includeFile (hne : r₀.files ≠ [])
    (hstep : r₀.step t paths = r.follow t paths dir loc operand) (hs : r.Shows s)
    (ho : Opened t (r.files.map OpenFile.file))
    (hfuel : t.nodes.length + 2 ≤ fuel + 1 + r.files.length) :
    r₀.Arrives t paths r.files
      (includeFile t paths (spliceText t paths fuel) dir loc operand s) := by
  rw [follow] at hstep
  rw [includeFile]
  cases hop : includeOperand? operand with
  | none => exact ⟨r₀, .refl, by simpa [hop] using hstep⟩
  | some name =>
    simp only [hop] at hstep ⊢
    cases hfind : findInclude? t (dir.toList ++ paths) name with
    | none => exact ⟨r₀, .refl, by simpa [hfind] using hstep⟩
    | some found =>
      obtain ⟨hc, hmem⟩ := canonical_of_isFile (isFile_of_findInclude? hfind)
      simp only [hfind, hc] at hstep ⊢
      generalize FileTree.pathOf (t.keyOf found) = file at hc hmem hstep ⊢
      simp only [← hs.openFiles, ← hs.scope, Splice.scope] at hstep
      by_cases hopen : file ∈ s.openFiles
      · simp only [hopen, if_true] at hstep ⊢
        exact ⟨r₀, .refl, hstep⟩
      by_cases hseen : file ∈ s.seen
      · simp only [hopen, hseen, if_true, if_false] at hstep ⊢
        exact ⟨r, .single ⟨hne, hstep⟩, rfl, hs⟩
      simp only [hopen, hseen, if_false] at hstep ⊢
      cases hr : t.readText file with
      | error e => exact ⟨r₀, .refl, by simpa [enter, hr] using hstep⟩
      | ok text =>
        exact arrives_enter ih hne hstep hr hs (ho.cons (hs.openFiles ▸ hopen) hmem) hfuel

theorem arrives_foldlM (hf : r.files = ⟨file, name, ls⟩ :: files) (hs : r.Shows s)
    (ho : Opened t (r.files.map OpenFile.file))
    (hfuel : t.nodes.length + 2 ≤ fuel + 1 + r.files.length) :
    r.Arrives t paths (⟨file, name, []⟩ :: files)
      (ls.foldlM (spliceLexeme t paths (spliceText t paths fuel) name file.parent?) s) := by
  induction ls generalizing r s with
  | nil => exact ⟨r, .refl, hf, hs⟩
  | cons l ls ihl =>
    rw [foldlM_cons]
    -- The open files are the same before and after a lexeme, but for what is left of the innermost.
    have hsame : r.files.map OpenFile.file = (⟨file, name, ls⟩ :: files).map OpenFile.file := by
      simp [hf]
    have hlen : r.files.length = (⟨file, name, ls⟩ :: files).length := by simp [hf]
    have hrest : Shows { r with files := ⟨file, name, ls⟩ :: files } s :=
      ⟨hs.tokens, hs.scope, hs.openFiles.trans hsame, hs.listed, hs.first, hs.nodup, hs.texts⟩
    have hne : r.files ≠ [] := by simp [hf]
    have harrives : r.Arrives t paths (⟨file, name, ls⟩ :: files)
        (spliceLexeme t paths (spliceText t paths fuel) name file.parent? s l) := by
      have hstep : r.step t paths = _ := step_cons hf
      rw [spliceLexeme_eq]
      cases hl : treatment l.token <;> rw [hl] at hstep
      · exact arrives_includeFile ih hne hstep hrest (hsame ▸ ho) (hlen ▸ hfuel)
      · exact ⟨r, .refl, hstep⟩
      · exact ⟨_, .single ⟨hne, hstep⟩, rfl, hrest⟩
      · exact ⟨_, .single ⟨hne, hstep⟩, rfl, hrest.keep _⟩
    exact harrives.bind fun r' s' hf' hs' =>
      ihl hf' hs' (hf' ▸ hsame ▸ ho) (hf' ▸ hlen ▸ hfuel)

end Splicing

/-- Reading a file to its end gets to where its splice does. -/
theorem arrives_spliceText {fuel : Nat} {file : Path} (hls : tokenize text = .ok ls)
    (hf : r.files = ⟨file, found.text, ls⟩ :: files) (hs : r.Shows s)
    (ho : Opened t (r.files.map OpenFile.file))
    (hfuel : t.nodes.length + 2 ≤ fuel + r.files.length) :
    r.Arrives t paths (⟨file, found.text, []⟩ :: files)
      (spliceText t paths fuel found.text text file.parent? s) := by
  -- Open files are different files of the tree, so there is fuel left for what they include.
  induction fuel generalizing found file text ls files r s with
  | zero =>
    have hlen := ho.length_le
    rw [length_map] at hlen
    omega
  | succ fuel ih =>
    simp only [spliceText, hls]
    exact arrives_foldlM (fun hls hf hs ho hfuel => ih hls hf hs ho hfuel) hf hs ho hfuel

end Arriving

section Ending
variable {x : Except Failure Reading} {p : Path}

theorem Stops.not_next (h : r.Stops t paths x) : ¬ r.Next t paths r' := by
  rintro ⟨hne, hstep⟩
  cases x with
  | error e => cases hstep.symm.trans h
  | ok r₁ => exact hne h.1

theorem Stops.eq_of_leads (h : r.Stops t paths x) (hl : Leads t paths r r') : r = r' := by
  rcases hl.cases_head with rfl | ⟨r₁, hn, -⟩
  · rfl
  · exact absurd hn h.not_next

theorem Stops.unique (h : r.Stops t paths x) (h' : r.Stops t paths x') : x = x' := by
  cases x with
  | error e =>
    cases x' with
    | error e' => exact congrArg _ (Except.error.inj (h.symm.trans h'))
    | ok r' => simp [Stops, step, h'.1] at h
  | ok r₁ =>
    cases x' with
    | error e' => simp [Stops, step, h.1] at h'
    | ok r₂ => rw [h.2, h'.2]

theorem Ends.unique (h : Ends t paths p x) (h' : Ends t paths p x') : x = x' := by
  rw [Ends] at h h'
  cases hs : start t p with
  | error e =>
    simp only [hs] at h h'
    exact h.trans h'.symm
  | ok r₀ =>
    simp only [hs] at h h'
    obtain ⟨r, hl, hx⟩ := h
    obtain ⟨r', hl', hx'⟩ := h'
    have hu : Relator.RightUnique (Next t paths) := fun _ _ _ h₁ h₂ =>
      Except.ok.inj (h₁.2.symm.trans h₂.2)
    obtain rfl : r = r' := by
      rcases ReflTransGen.total_of_right_unique hu hl hl' with hl | hl
      · exact hx.eq_of_leads hl
      · exact (hx'.eq_of_leads hl).symm
    exact hx.unique hx'

theorem start_eq_ok : start t p = .ok r₀ ↔
    ∃ file text ls, t.canonical p = .ok file ∧ t.readText file = .ok text ∧
      tokenize text = .ok ls ∧ r₀ = ⟨[⟨file, p.text, ls⟩], [], ⟨[file], none⟩, [file]⟩ := by
  rw [start]
  cases t.canonical p with
  | error e => simp
  | ok file => simp [enter_eq_ok, blank, Scope.next]

theorem shows_opening {file : Path} : Shows
    { files := [⟨file, name, ls⟩], tokens := [], scope := ⟨[file], none⟩, texts := [file] }
    (.opening file) :=
  ⟨rfl, rfl, rfl, rfl, rfl, by simp [Splice.opening], fun _ => Iff.rfl⟩

theorem load_of_start_error {e : Failure} (h : start t p = .error e) :
    load t paths p = .error e := by
  rw [start] at h
  rw [load]
  cases hc : t.canonical p with
  | error e =>
    simp only [hc] at h
    cases h
    rfl
  | ok file =>
    simp only [hc, enter] at h ⊢
    cases hr : t.readText file with
    | error e =>
      simp only [hr] at h
      cases h
      rfl
    | ok text =>
      simp only [hr] at h ⊢
      cases hls : tokenize text with
      | error e =>
        rw [spliceText_of_scan (by simp [depth]) hls]
        simpa [hls] using h
      | ok ls => simp [hls] at h

/-- Loading a file gives what reading it comes to. -/
theorem load_ends (t : FileTree) (paths : List Path) (p : Path) :
    (∃ e, load t paths p = .error e ∧ Ends t paths p (.error e)) ∨
      ∃ src r s, load t paths p = .ok src ∧ Ends t paths p (.ok r) ∧ r.Shows s ∧
        src.tokens = s.tokens.toList ∧ src.dependencies = s.dependencies := by
  cases hstart : start t p with
  | error e => exact .inl ⟨e, load_of_start_error hstart, by simp [Ends, hstart]⟩
  | ok r₀ =>
    obtain ⟨file, text, ls, hc, hr, hls, rfl⟩ := start_eq_ok.1 hstart
    have harrives : Arrives t paths _ [⟨file, p.text, []⟩]
        (spliceText t paths (depth t) p.text text file.parent? (.opening file)) :=
      arrives_spliceText hls rfl shows_opening ⟨by simp, by simp, by simp⟩ (by simp [depth])
    have hload : load t paths p =
        spliceText t paths (depth t) p.text text file.parent? (.opening file) >>= fun s =>
          .ok { name := p.text, tokens := s.tokens.toList, dependencies := s.dependencies } := by
      simp only [load, hc, hr]
      rfl
    rw [hload]
    simp only [Ends, hstart]
    cases hs : spliceText t paths (depth t) p.text text file.parent? (.opening file) with
    | error e =>
      rw [hs] at harrives
      exact .inl ⟨e, rfl, harrives⟩
    | ok s =>
      rw [hs] at harrives
      obtain ⟨r, hl, hf, hs⟩ := harrives
      obtain ⟨r', hl', hf', hs'⟩ := arrives_leave hf hs
      exact .inr ⟨_, r', _, rfl, ⟨r', hl.trans hl', hf', rfl⟩, hs', rfl, rfl⟩

end Ending

/-- A token is a lexeme of the text of a file, and names the file. -/
def Occurs (t : FileTree) (file : Path) (token : Placed) : Prop :=
  t.canonical ⟨token.loc.file⟩ = .ok file ∧ ∃ text ls, t.readText file = .ok text ∧
    tokenize text = .ok ls ∧ ⟨token.token, token.loc.line⟩ ∈ ls

/-- What is kept all the time that a file is read. -/
structure Sound (t : FileTree) (root : Path) (r : Reading) : Prop where
  first : r.texts.head? = some root
  files : ∀ f ∈ r.files, f.file ∈ r.texts ∧ ∀ l ∈ f.rest, Occurs t f.file ⟨l.token, f.name, l.line⟩
  tokens : ∀ token ∈ r.tokens, ∃ file ∈ r.texts, Occurs t file token

/-- What a step can do: leave a file, pass over a lexeme, keep it, or enter an included file. -/
theorem step_eq_ok (hne : r.files ≠ []) (h : r.step t paths = .ok r') :
    ∃ file name rest files, r.files = ⟨file, name, rest⟩ :: files ∧
      (r' = { r with files } ∨ ∃ l ls, rest = l :: ls ∧
        (r' = { r with files := ⟨file, name, ls⟩ :: files } ∨
          r' = keep { r with files := ⟨file, name, ls⟩ :: files } ⟨l.token, name, l.line⟩ ∨
          ∃ found inner, t.canonical found = .ok inner ∧
            enter t found inner { r with files := ⟨file, name, ls⟩ :: files } = .ok r')) := by
  obtain ⟨⟨file, name, rest⟩, files, hf⟩ := exists_cons_of_ne_nil hne
  refine ⟨file, name, rest, files, hf, ?_⟩
  cases rest with
  | nil => exact .inl (by simpa [step, hf, eq_comm] using h)
  | cons l ls =>
    refine .inr ⟨l, ls, rfl, ?_⟩
    rw [step_cons hf] at h
    split at h
    · obtain ⟨_, found, inner, -, -, hc, -, ⟨-, h⟩ | ⟨-, h⟩⟩ := follow_eq_ok h
      · exact .inl h
      · exact .inr (.inr ⟨found, inner, hc, h⟩)
    · cases h
    · exact .inl (Except.ok.inj h).symm
    · exact .inr (.inl (Except.ok.inj h).symm)

theorem Occurs.of_mem (hc : t.canonical found = .ok file) (hr : t.readText file = .ok text)
    (hls : tokenize text = .ok ls) (hl : l ∈ ls) : Occurs t file ⟨l.token, found.text, l.line⟩ :=
  ⟨hc, text, ls, hr, hls, hl⟩

theorem sound_start (h : start t p = .ok r₀) :
    ∃ root, t.canonical p = .ok root ∧ Sound t root r₀ := by
  obtain ⟨file, text, ls, hc, hr, hls, rfl⟩ := start_eq_ok.1 h
  refine ⟨file, hc, rfl, fun f hf => ?_, by simp⟩
  obtain rfl := mem_singleton.1 hf
  exact ⟨by simp, fun l hl => .of_mem hc hr hls hl⟩

theorem sound_next (h : Sound t root r) (hn : r.Next t paths r') : Sound t root r' := by
  obtain ⟨file, name, rest, files, hf, hstep⟩ := step_eq_ok hn.1 hn.2
  have hfiles := h.files
  rw [hf, forall_mem_cons] at hfiles
  obtain ⟨hinner, houter⟩ := hfiles
  rcases hstep with rfl | ⟨l, ls, rfl, hstep⟩
  · exact ⟨h.first, houter, h.tokens⟩
  · obtain ⟨hl, hls⟩ := forall_mem_cons.1 hinner.2
    have hrest : Sound t root { r with files := ⟨file, name, ls⟩ :: files } :=
      ⟨h.first, forall_mem_cons.2 ⟨⟨hinner.1, hls⟩, houter⟩, h.tokens⟩
    rcases hstep with rfl | rfl | ⟨found, inner, hc, he⟩
    · exact hrest
    · refine ⟨hrest.first, hrest.files, fun token htoken => ?_⟩
      rcases mem_append.1 htoken with htoken | htoken
      · exact hrest.tokens token htoken
      · obtain rfl := mem_singleton.1 htoken
        exact ⟨file, hinner.1, hl⟩
    · obtain ⟨text, lexemes, hr, ht, rfl⟩ := enter_eq_ok.1 he
      refine ⟨?_, forall_mem_cons.2 ⟨⟨by simp, fun l hl => .of_mem hc hr ht hl⟩, ?_⟩, ?_⟩
      · rw [head?_append, hrest.first, Option.some_or]
      · exact fun f hf => ⟨mem_append_left _ (hrest.files f hf).1, (hrest.files f hf).2⟩
      · intro token htoken
        obtain ⟨file, hfile, ho⟩ := hrest.tokens token htoken
        exact ⟨file, mem_append_left _ hfile, ho⟩

theorem sound_of_leads (h : Sound t root r) (hl : Leads t paths r r') : Sound t root r' := by
  induction hl with
  | refl => exact h
  | tail _ hn ih => exact sound_next ih hn

theorem Ends.reaches (h : Ends t paths p (.ok r)) : Reaches t paths p r := by
  rw [Ends] at h
  cases hs : start t p with
  | error e => simp [hs] at h
  | ok r₀ =>
    simp only [hs] at h
    obtain ⟨r', hl, -, rfl⟩ := h
    exact ⟨r₀, hs, hl⟩

theorem Ends.sound (h : Ends t paths p (.ok r)) :
    ∃ root, t.canonical p = .ok root ∧ Sound t root r := by
  obtain ⟨r₀, hs, hl⟩ := h.reaches
  obtain ⟨root, hc, hsound⟩ := sound_start hs
  exact ⟨root, hc, sound_of_leads hsound hl⟩

theorem Reaches.ends_of_atCycle (h : Reaches t paths p r) (hc : r.AtCycle t paths) :
    ∃ loc name, Ends t paths p (.error (.source loc (.includeCycle name))) := by
  obtain ⟨r₀, hs, hl⟩ := h
  obtain ⟨current, name, l, ls, files, operand, found, file, hf, ht, hfinds, hopen⟩ := hc
  obtain ⟨inner, hop, hfind, hcan⟩ := hfinds
  refine ⟨⟨name, l.line⟩, inner, ?_⟩
  rw [Ends, hs]
  refine ⟨r, hl, ?_⟩
  rw [hf] at hopen
  change r.step t paths = _
  rw [step_cons hf, ht]
  simp only [treatment, follow, hop, hfind, hcan]
  rw [if_pos (by simpa using hopen)]

end Reading

/-- Reading a file comes to an end, and loading the file gives what it comes to. The dependencies of
a source start with the file itself, are all different, and are the files whose texts were read, and
every token is from one of them. An include of a file that is still being spliced makes loading
fail. -/
theorem load_terminates (t : FileTree) (paths : List Path) (p : Path) :
    (∃ result, Reading.Ends t paths p result ∧
      (∀ e, load t paths p = .error e → result = .error e) ∧
      ∀ src, load t paths p = .ok src → ∃ r root others, result = .ok r ∧
        t.canonical p = .ok root ∧ src.dependencies = root :: others ∧ src.dependencies.Nodup ∧
        (∀ file, file ∈ src.dependencies ↔ file ∈ r.texts) ∧ src.tokens = r.tokens ∧
        ∀ token ∈ src.tokens, ∃ file ∈ src.dependencies, Reading.Occurs t file token) ∧
    ∀ r, Reading.Reaches t paths p r → r.AtCycle t paths →
      ∃ loc name, load t paths p = .error (.source loc (.includeCycle name)) := by
  rcases Reading.load_ends t paths p with ⟨e, hload, hends⟩ | ⟨src, r, s, hload, hends, hs, ht, hd⟩
  · refine ⟨⟨_, hends, fun e' he => ?_, fun src hsrc => ?_⟩, fun r hr hc => ?_⟩
    · rw [Except.error.inj (hload.symm.trans he)]
    · cases hload.symm.trans hsrc
    · obtain ⟨loc, name, hcycle⟩ := hr.ends_of_atCycle hc
      cases hends.unique hcycle
      exact ⟨loc, name, hload⟩
  · refine ⟨⟨_, hends, fun e he => ?_, fun src' hsrc => ?_⟩, fun r' hr hc => ?_⟩
    · cases hload.symm.trans he
    · cases hload.symm.trans hsrc
      obtain ⟨root, hc, hsound⟩ := hends.sound
      rw [hs.tokens] at ht
      obtain ⟨others, hothers⟩ := head?_eq_some_iff.1 (hs.first.trans hsound.first)
      refine ⟨r, root, others, rfl, hc, hd.trans hothers, hd ▸ hs.nodup, hd ▸ hs.texts, ht, ?_⟩
      intro token htoken
      obtain ⟨file, hfile, ho⟩ := hsound.tokens token (ht ▸ htoken)
      exact ⟨file, hd ▸ (hs.texts file).2 hfile, ho⟩
    · obtain ⟨loc, name, hcycle⟩ := hr.ends_of_atCycle hc
      cases hends.unique hcycle

/-- Two files that include each other, and a third one with two blocks that include a fourth. -/
def ring : FileTree :=
  ⟨[], [(["m"], .file (Text.utf8 "#include \"x\"") false),
    (["x"], .file (Text.utf8 "#include \"m\"") false),
    (["d"], .file (Text.utf8 ("#comp a\n#include \"y\"\n#end\n" ++
      "#comp b\n#include \"y\"\n#end")) false),
    (["y"], .file (Text.utf8 "y") false)]⟩

theorem reaches_ring : ∃ r, Reading.Reaches ring [] ⟨"m"⟩ r ∧ r.AtCycle ring [] := by
  let outer : List OpenFile := [⟨⟨"/m"⟩, "m", []⟩]
  let r₀ : Reading := ⟨[⟨⟨"/m"⟩, "m", [⟨.directive "include" "\"x\"", 1⟩]⟩], [], ⟨[⟨"/m"⟩], none⟩,
    [⟨"/m"⟩]⟩
  let r₁ : Reading := ⟨⟨⟨"/x"⟩, "/x", [⟨.directive "include" "\"m\"", 1⟩]⟩ :: outer, [],
    ⟨[⟨"/x"⟩, ⟨"/m"⟩], none⟩, [⟨"/m"⟩, ⟨"/x"⟩]⟩
  have hstart : Reading.start ring ⟨"m"⟩ = .ok r₀ := by decide +kernel
  have hstep : r₀.step ring [] = .ok r₁ := by decide +kernel
  refine ⟨r₁, ⟨r₀, hstart, .single ⟨by simp [r₀], hstep⟩⟩, ⟨"/x"⟩, "/x", _, _, outer,
    "\"m\"", ⟨"/m"⟩, ⟨"/m"⟩, rfl, rfl, ⟨"m", by decide +kernel⟩, by simp [r₁, outer]⟩

/-- A ring is found out, and a file that two blocks include is read twice but listed once. -/
theorem load_terminates_ring :
    (∃ r, Reading.Reaches ring [] ⟨"m"⟩ r ∧ r.AtCycle ring []) ∧
      (∃ loc name, load ring [] ⟨"m"⟩ = .error (.source loc (.includeCycle name))) ∧
      ∃ src r, load ring [] ⟨"d"⟩ = .ok src ∧ Reading.Ends ring [] ⟨"d"⟩ (.ok r) ∧
        src.dependencies = [⟨"/d"⟩, ⟨"/y"⟩] ∧ ∀ file, file ∈ [⟨"/d"⟩, ⟨"/y"⟩] ↔ file ∈ r.texts := by
  obtain ⟨r, hr, hc⟩ := reaches_ring
  have hload : (load ring [] ⟨"d"⟩).map (·.dependencies) = .ok [⟨"/d"⟩, ⟨"/y"⟩] := by
    decide +kernel
  obtain ⟨src, hsrc, hd⟩ := Success.map_eq_ok.1 hload
  obtain ⟨result, hends, -, hok⟩ := (load_terminates ring [] ⟨"d"⟩).1
  obtain ⟨r', -, -, rfl, -, -, -, htexts, -⟩ := hok src hsrc
  exact ⟨⟨r, hr, hc⟩, (load_terminates ring [] ⟨"m"⟩).2 r hr hc, src, r', hsrc, hends, hd,
    hd ▸ htexts⟩

end ShaderDialect.Source
