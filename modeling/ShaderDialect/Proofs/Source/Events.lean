import ShaderDialect.Proofs.Source.Locality

/-! What reading a source comes upon, in the order of reading: tokens and includes. An include is
spliced exactly if the present scope does not have the file yet, which determines all events. -/
namespace ShaderDialect.Source

open List Success

/-- An include finds a path, which leads to a file. -/
def Finds (t : FileTree) (paths : List Path) (dir : Option Path) (operand : String)
    (found file : Path) : Prop :=
  ∃ name, includeOperand? operand = some name ∧
    findInclude? t (dir.toList ++ paths) name = some found ∧ t.canonical found = .ok file

/-- Events of the lexemes of a file: at each include, the file that it finds is spliced or not. -/
inductive Traces (t : FileTree) (paths : List Path) :
    String → Option Path → List Lexeme → List Event → Prop
  | nil {name dir} : Traces t paths name dir [] []
  | token {name dir l ls es} (hl : isKept l.token = true) (hs : Traces t paths name dir ls es) :
      Traces t paths name dir (l :: ls) (.token ⟨l.token, ⟨name, l.line⟩⟩ :: es)
  | pragma {name dir l ls es operand} (hl : l.token = .directive "pragma" operand)
      (hs : Traces t paths name dir ls es) : Traces t paths name dir (l :: ls) es
  | skipped {name dir l ls es operand found file} (hl : l.token = .directive "include" operand)
      (hf : Finds t paths dir operand found file) (hs : Traces t paths name dir ls es) :
      Traces t paths name dir (l :: ls) (.inclusion file false :: es)
  | spliced {name dir l ls es operand found file text inner es'}
      (hl : l.token = .directive "include" operand) (hf : Finds t paths dir operand found file)
      (hr : t.readText file = .ok text) (ht : tokenize text = .ok inner)
      (hi : Traces t paths found.text file.parent? inner es') (hs : Traces t paths name dir ls es) :
      Traces t paths name dir (l :: ls) (.inclusion file true :: (es' ++ es))

namespace Scope

/-- A file is spliced exactly if it has not been. -/
def Fits (c : Scope) : Event → Prop
  | .token _ => True
  | .inclusion file spliced => spliced = true ↔ file ∉ c.seen

instance (c : Scope) : DecidablePred c.Fits
  | .token _ => isTrue trivial
  | .inclusion file spliced => inferInstanceAs (Decidable (spliced = true ↔ file ∉ c.seen))

end Scope

/-- Every event fits the scope that the events before it lead to. -/
def Once : Scope → List Event → Prop
  | _, [] => True
  | c, e :: es => c.Fits e ∧ Once (c.next e) es

instance decidableOnce : (c : Scope) → (es : List Event) → Decidable (Once c es)
  | _, [] => isTrue trivial
  | c, e :: es => @instDecidableAnd _ _ inferInstance (decidableOnce (c.next e) es)

variable {c : Scope} {es es' : List Event}

theorem once_append : Once c (es ++ es') ↔ Once c es ∧ Once (es.foldl Scope.next c) es' := by
  induction es generalizing c with
  | nil => simp [Once]
  | cons e es ih => simp [Once, ih, and_assoc]

variable {operand : String} {ls : List Lexeme}

section Splicing
variable {t : FileTree} {paths : List Path} {name : String} {dir : Option Path} {s s₁ s' : Splice}
  {nested : String → String → Option Path → Splice → Except Failure Splice}

/-- Events lead from one splice to another. -/
structure Splice.Follows (s : Splice) (es : List Event) (s' : Splice) : Prop where
  tokens : s'.tokens.toList = s.tokens.toList ++ es.filterMap Event.token?
  openFiles : s'.openFiles = s.openFiles
  scope : s'.scope = es.foldl Scope.next s.scope
  once : Once s.scope es
  /-- What is being spliced is not included. -/
  apart : ∀ file spliced, .inclusion file spliced ∈ es → file ∉ s.openFiles

theorem Splice.Follows.refl (s : Splice) : s.Follows [] s :=
  ⟨by simp, rfl, rfl, trivial, by simp⟩

theorem Splice.Follows.trans (h : s.Follows es s₁) (h' : s₁.Follows es' s') :
    s.Follows (es ++ es') s' := by
  refine ⟨?_, h'.openFiles.trans h.openFiles, ?_, once_append.2 ⟨h.once, h.scope ▸ h'.once⟩, ?_⟩
  · rw [h'.tokens, h.tokens, filterMap_append, append_assoc]
  · rw [h'.scope, h.scope, foldl_append]
  · intro file spliced hm
    rcases mem_append.1 hm with hm | hm
    · exact h.apart file spliced hm
    · exact h.openFiles ▸ h'.apart file spliced hm

theorem Splice.follows_keep (s : Splice) (p : Placed) : s.Follows [.token p] (s.keep p) :=
  ⟨by simp [keep], rfl, rfl, ⟨trivial, trivial⟩, by simp⟩

section
variable (hn : ∀ {name text dir s s'}, nested name text dir s = .ok s' →
  ∃ ls es, tokenize text = .ok ls ∧ Traces t paths name dir ls es ∧ s.Follows es s')
include hn

/-- An include leads to its own event, followed by those of the file that it splices. -/
theorem includeFile_follows {loc : Loc}
    (h : includeFile t paths nested dir loc operand s = .ok s') :
    ∃ found file, Finds t paths dir operand found file ∧
      (s.Follows [.inclusion file false] s' ∨
        ∃ text ls es, t.readText file = .ok text ∧ tokenize text = .ok ls ∧
          Traces t paths found.text file.parent? ls es ∧
          s.Follows (.inclusion file true :: es) s') := by
  obtain ⟨name, found, file, ho, hf, hc, hopen, h⟩ := includeFile_eq_ok.1 h
  refine ⟨found, file, ⟨name, ho, hf, hc⟩, ?_⟩
  rcases h with ⟨hseen, rfl⟩ | ⟨hseen, text, s₁, hr, hs, rfl⟩
  · refine .inl ⟨by simp, rfl, rfl, ⟨?_, trivial⟩, ?_⟩
    · simpa [Scope.Fits, Splice.scope] using hseen
    · intro other spliced hm
      obtain ⟨rfl, -⟩ : other = file ∧ spliced = false := by simpa using hm
      exact hopen
  · obtain ⟨ls, es, hls, htraces, hs⟩ := hn hs
    refine .inr ⟨text, ls, es, hr, hls, htraces, hs.tokens, rfl, hs.scope, ⟨?_, hs.once⟩, ?_⟩
    · simpa [Scope.Fits, Splice.scope] using hseen
    · intro other spliced hm
      rcases mem_cons.1 hm with hm | hm
      · obtain ⟨rfl, -⟩ : other = file ∧ spliced = true := by simpa using hm
        exact hopen
      · intro hin
        exact hs.apart other spliced hm (mem_cons_of_mem file hin)

theorem spliceLexeme_follows {l : Lexeme}
    (h : spliceLexeme t paths nested name dir s l = .ok s') :
    ∃ es, s.Follows es s' ∧ ∀ {ls rest}, Traces t paths name dir ls rest →
      Traces t paths name dir (l :: ls) (es ++ rest) := by
  rw [spliceLexeme_eq] at h
  cases hl : treatment l.token with
  | inclusion operand =>
    rw [hl] at h
    rw [treatment_eq_inclusion] at hl
    obtain ⟨found, file, hf, h | ⟨text, inner, es, hr, ht, hi, h⟩⟩ := includeFile_follows hn h
    · exact ⟨_, h, fun hs => .skipped hl hf hs⟩
    · exact ⟨_, h, fun hs => .spliced hl hf hr ht hi hs⟩
  | refused word => simp [hl] at h
  | dropped =>
    obtain ⟨operand, hp⟩ := exists_of_treatment hl
    obtain rfl : s = s' := by simpa [hl] using h
    exact ⟨[], .refl s, fun hs => .pragma hp hs⟩
  | kept =>
    obtain rfl : s.keep _ = s' := by simpa [hl] using h
    exact ⟨_, s.follows_keep _, fun hs => .token (isKept_iff.2 hl) hs⟩

theorem foldlM_follows (h : ls.foldlM (spliceLexeme t paths nested name dir) s = .ok s') :
    ∃ es, Traces t paths name dir ls es ∧ s.Follows es s' := by
  induction ls generalizing s with
  | nil =>
    cases h
    exact ⟨[], .nil, .refl _⟩
  | cons l ls ih =>
    rw [foldlM_cons, bind_eq_ok] at h
    obtain ⟨s₁, h₁, h⟩ := h
    obtain ⟨es₁, hs₁, hl⟩ := spliceLexeme_follows hn h₁
    obtain ⟨es, htraces, hs⟩ := ih h
    exact ⟨es₁ ++ es, hl htraces, hs₁.trans hs⟩

end

theorem spliceText_follows {fuel : Nat} {text : String}
    (h : spliceText t paths fuel name text dir s = .ok s') :
    ∃ ls es, tokenize text = .ok ls ∧ Traces t paths name dir ls es ∧ s.Follows es s' := by
  induction fuel generalizing name text dir s s' with
  | zero => cases h
  | succ fuel ih =>
    rw [spliceText] at h
    cases ht : tokenize text with
    | error e => simp [ht] at h
    | ok ls =>
      rw [ht] at h
      obtain ⟨es, htraces, hs⟩ := foldlM_follows (fun h => ih h) h
      exact ⟨ls, es, rfl, htraces, hs⟩

end Splicing

variable {file file' p : Path}

section Loading
variable {t : FileTree} {paths : List Path} {name : String} {dir : Option Path}

theorem Finds.unique {found found' : Path} (h : Finds t paths dir operand found file)
    (h' : Finds t paths dir operand found' file') : found = found' ∧ file = file' := by
  obtain ⟨name, ho, hf, hc⟩ := h
  obtain ⟨name', ho', hf', hc'⟩ := h'
  obtain rfl : name = name' := Option.some.inj (ho.symm.trans ho')
  obtain rfl : found = found' := Option.some.inj (hf.symm.trans hf')
  exact ⟨rfl, Except.ok.inj (hc.symm.trans hc')⟩

/-- A text has one list of events that splices each file once in a scope. -/
theorem Traces.unique (h : Traces t paths name dir ls es) (ho : Once c es)
    (h' : Traces t paths name dir ls es') (ho' : Once c es') : es = es' := by
  -- The scope decides at each include, and it is the same on both sides so far.
  induction h generalizing es' c with
  | nil =>
    cases h'
    rfl
  | @token name dir l ls es hl hs ih =>
    cases h' with
    | token _ hs' => rw [ih ho.2 hs' ho'.2]
    | pragma hl' => simp [hl', isKept] at hl
    | skipped hl' => simp [hl', isKept] at hl
    | spliced hl' => simp [hl', isKept] at hl
  | @pragma name dir l ls es operand hl hs ih =>
    cases h' with
    | token hl' => simp [hl, isKept] at hl'
    | pragma _ hs' => exact ih ho hs' ho'
    | skipped hl' => simp [hl] at hl'
    | spliced hl' => simp [hl] at hl'
  | @skipped name dir l ls es operand found file hl hf hs ih =>
    cases h' with
    | token hl' => simp [hl, isKept] at hl'
    | pragma hl' => simp [hl] at hl'
    | skipped hl' hf' hs' =>
      obtain rfl : operand = _ := by simpa [hl] using hl'
      obtain ⟨-, rfl⟩ := hf.unique hf'
      rw [ih ho.2 hs' ho'.2]
    | spliced hl' hf' =>
      obtain rfl : operand = _ := by simpa [hl] using hl'
      obtain ⟨-, rfl⟩ := hf.unique hf'
      exact absurd (ho'.1.1 rfl) fun hn => by simpa using ho.1.2 hn
  | @spliced name dir l ls es operand found file text inner es₁ hl hf hr ht hi hs ihi ih =>
    cases h' with
    | token hl' => simp [hl, isKept] at hl'
    | pragma hl' => simp [hl] at hl'
    | skipped hl' hf' =>
      obtain rfl : operand = _ := by simpa [hl] using hl'
      obtain ⟨-, rfl⟩ := hf.unique hf'
      exact absurd (ho.1.1 rfl) fun hn => by simpa using ho'.1.2 hn
    | spliced hl' hf' hr' ht' hi' hs' =>
      obtain rfl : operand = _ := by simpa [hl] using hl'
      obtain ⟨rfl, rfl⟩ := hf.unique hf'
      cases hr.symm.trans hr'
      cases ht.symm.trans ht'
      obtain ⟨hoi, hos⟩ := once_append.1 ho.2
      obtain ⟨hoi', hos'⟩ := once_append.1 ho'.2
      obtain rfl := ihi hoi hi' hoi'
      rw [ih hos hs' hos']

/-- Events of a file and of the files that it includes, itself not among them. -/
def Reads (t : FileTree) (paths : List Path) (p file : Path) (es : List Event) : Prop :=
  ∃ text ls, t.canonical p = .ok file ∧ t.readText file = .ok text ∧ tokenize text = .ok ls ∧
    Traces t paths p.text file.parent? ls es ∧ ∀ spliced, .inclusion file spliced ∉ es

/-- The tokens of a source are those of its events. -/
theorem reads_of_load {src : Source} (h : load t paths p = .ok src) :
    ∃ file es, Reads t paths p file es ∧ Once ⟨[file], none⟩ es ∧
      src.tokens = es.filterMap Event.token? := by
  obtain ⟨file, text, s, hc, hr, hs, rfl⟩ := load_eq_ok.1 h
  obtain ⟨ls, es, hls, htraces, hs⟩ := spliceText_follows hs
  refine ⟨file, es, ⟨text, ls, hc, hr, hls, htraces, ?_⟩, hs.once, hs.tokens⟩
  intro spliced hm
  exact hs.apart file spliced hm (mem_singleton.2 rfl)

theorem Reads.unique (h : Reads t paths p file es) (ho : Once ⟨[file], none⟩ es)
    (h' : Reads t paths p file' es') (ho' : Once ⟨[file'], none⟩ es') : es = es' := by
  obtain ⟨text, ls, hc, hr, hls, htraces, -⟩ := h
  obtain ⟨text', ls', hc', hr', hls', htraces', -⟩ := h'
  cases hc.symm.trans hc'
  cases hr.symm.trans hr'
  cases hls.symm.trans hls'
  exact htraces.unique ho htraces' ho'

end Loading

end ShaderDialect.Source
