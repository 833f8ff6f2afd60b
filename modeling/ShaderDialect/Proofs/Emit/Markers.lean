import ShaderDialect.Emit.Shader
import ShaderDialect.Proofs.NonUniform.Loops

/-! Markers in the body of an entry point. What stands for one is laid out as lines that nothing
after it can change: the body starts with the lines of `INIT_MAIN`, and the lines of each `RETURN`
are in it from the opening brace up to the closing one. -/
namespace ShaderDialect

open List Success

namespace Layout
variable {l : Layout} {base texts : List String}

/-- A layout that goes on after finished lines. -/
def onto (l : Layout) (base : List String) : Layout := { l with done := l.done ++ base }

/-- Finished lines to which no semicolon is added. -/
def Settled (base : List String) : Prop := ∀ last ∈ base.head?, last.toList.getLast? ≠ some '\x7d'

theorem flush_onto (l : Layout) (base : List String) : (l.onto base).flush = l.flush.onto base := by
  unfold flush
  have hline : (l.onto base).line = l.line := rfl
  rw [hline]
  split <;> rfl

theorem afterBrace?_onto (h : Settled base) (l : Layout) :
    (l.onto base).afterBrace? = l.afterBrace?.map (· ++ base) := by
  obtain ⟨done, indent, line, depth⟩ := l
  cases line with
  | cons p line => rfl
  | nil =>
    cases done with
    | cons last done =>
      simp only [afterBrace?, onto, cons_append]
      split <;> rfl
    | nil =>
      cases base with
      | nil => rfl
      | cons last base =>
        have hlast : last.toList.getLast? ≠ some '\x7d' := h last rfl
        simp [afterBrace?, onto, hlast]

theorem push_onto (h : Settled base) (l : Layout) (p : Piece) :
    (l.onto base).push p = (l.push p).onto base := by
  cases p with
  | word text => rfl
  | op symbol => rfl
  | line text =>
    simp only [push, flush_onto]
    rfl
  | delim d =>
    cases d with
    | lbrace | rbrace =>
      simp only [push, flush_onto]
      rfl
    | semicolon =>
      have hdepth : (l.onto base).depth = l.depth := rfl
      simp only [push, afterBrace?_onto h, hdepth]
      split
      · rfl
      · cases l.afterBrace? with
        | none => exact flush_onto (l.keep (.delim .semicolon)) base
        | some done => rfl
    | _ => rfl

theorem foldl_push_onto (h : Settled base) (pieces : List Piece) (l : Layout) :
    pieces.foldl push (l.onto base) = (pieces.foldl push l).onto base := by
  induction pieces generalizing l with
  | nil => rfl
  | cons p pieces ih => rw [foldl_cons, foldl_cons, push_onto h, ih]

theorem prefix_foldl_push (h : Settled l.done) (pieces : List Piece) :
    l.done.reverse <+: (pieces.foldl push l).flush.done.reverse := by
  have hl : l = ({ l with done := [] } : Layout).onto l.done := rfl
  rw [hl, foldl_push_onto h, flush_onto]
  exact ⟨_, reverse_append.symm⟩

theorem foldl_push_lines (done : List String) (n depth : Nat) (texts : List String) :
    (texts.map Piece.line).foldl push ⟨done, n, [], depth⟩ =
      ⟨(texts.map (indentation n ++ ·)).reverse ++ done, n, [], depth⟩ := by
  induction texts generalizing done with
  | nil => rfl
  | cons text texts ih =>
    have hpush : push ⟨done, n, [], depth⟩ (.line text) =
        ⟨(indentation n ++ text) :: done, n, [], depth⟩ := rfl
    rw [map_cons, foldl_cons, hpush, ih]
    simp

theorem lines_lines (n : Nat) (texts : List String) :
    lines n (texts.map .line) = texts.map (indentation n ++ ·) := by
  rw [lines, start, foldl_push_lines]
  simp [flush]

def braced (texts : List String) : List Piece :=
  .delim .lbrace :: (texts.map Piece.line ++ [.delim .rbrace])

theorem braced_inj {texts' : List String} (h : braced texts = braced texts') : texts = texts' := by
  have hlines : texts.map Piece.line = texts'.map Piece.line := by simpa [braced] using h
  exact map_injective_iff.2 (fun _ _ => Piece.line.inj) hlines

def opened (n : Nat) (texts : List String) : List String :=
  (indentation n ++ "\x7b") :: texts.map (indentation (n + 1) ++ ·)

theorem push_lbrace (l : Layout) : l.push (.delim .lbrace) =
    ⟨(indentation l.indent ++ "\x7b") :: l.flush.done, l.indent + 1, [], l.depth⟩ := by
  obtain ⟨done, indent, line, depth⟩ := l
  cases line <;> rfl

theorem foldl_push_opened (l : Layout) (texts : List String) :
    (.delim .lbrace :: texts.map Piece.line).foldl push l =
      ⟨(opened l.indent texts).reverse ++ l.flush.done, l.indent + 1, [], l.depth⟩ := by
  rw [foldl_cons, push_lbrace, foldl_push_lines]
  simp [opened]

theorem lines_braced (n : Nat) (texts : List String) :
    lines n (braced texts) = opened n texts ++ [indentation n ++ "\x7d"] := by
  rw [lines, braced, ← cons_append, foldl_append, foldl_push_opened]
  simp [push, flush, start, addLine]

theorem getLast?_append {text : String} {c : Char} (h : text.toList.getLast? = some c)
    (s : String) : (s ++ text).toList.getLast? = some c := by
  rw [String.toList_append, List.getLast?_append, h, Option.some_or]

/-- A line that ends with a semicolon. -/
def Ended (p : Piece) : Prop := ∃ text : String, p = .line text ∧ text.toList.getLast? = some ';'

theorem exists_texts {pieces : List Piece} (h : ∀ p ∈ pieces, Ended p) :
    ∃ texts : List String, pieces = texts.map Piece.line ∧
      ∀ text ∈ texts, text.toList.getLast? = some ';' := by
  induction pieces with
  | nil => exact ⟨[], rfl, by simp⟩
  | cons p pieces ih =>
    obtain ⟨⟨text, rfl, hend⟩, hrest⟩ := forall_mem_cons.1 h
    obtain ⟨texts, rfl, hends⟩ := ih hrest
    exact ⟨text :: texts, rfl, forall_mem_cons.2 ⟨hend, hends⟩⟩

/-- Lines that all end with a semicolon are what every longer text starts with. -/
theorem lines_prefix {first : List Piece} (h : ∀ p ∈ first, Ended p) (n : Nat)
    (pieces : List Piece) : lines n first <+: lines n (first ++ pieces) := by
  obtain ⟨texts, rfl, hends⟩ := exists_texts h
  have hsettled : Settled ((texts.map (indentation n ++ ·)).reverse ++ []) := by
    intro last hlast
    rw [append_nil, head?_reverse, getLast?_map] at hlast
    obtain ⟨text, htext, rfl⟩ := Option.map_eq_some_iff.1 hlast
    rw [getLast?_append (hends text (mem_of_getLast? htext))]
    decide
  rw [lines_lines, lines, foldl_append, start, foldl_push_lines]
  generalize hl : Layout.mk _ _ _ _ = l
  have hdone : l.done = (texts.map (indentation n ++ ·)).reverse ++ [] := by rw [← hl]
  rw [← hdone] at hsettled
  have hprefix := prefix_foldl_push hsettled pieces
  rwa [hdone, append_nil, reverse_reverse] at hprefix

/-- Lines between braces are in every text around them, up to the closing brace. -/
theorem opened_infix {last : String} (h : last.toList.getLast? = some ';') (n : Nat)
    (before after : List Piece) :
    ∃ k, opened k (texts ++ [last]) <:+: lines n (before ++ braced (texts ++ [last]) ++ after) := by
  have hsplit : before ++ braced (texts ++ [last]) ++ after =
      before ++
        ((.delim .lbrace :: (texts ++ [last]).map Piece.line) ++ (.delim .rbrace :: after)) := by
    simp [braced]
  rw [hsplit, lines, foldl_append, foldl_append, foldl_push_opened]
  generalize before.foldl push (start n) = l
  have hsettled : Settled ((opened l.indent (texts ++ [last])).reverse ++ l.flush.done) := by
    intro line hline
    have hline : line = indentation (l.indent + 1) ++ last := by simpa [opened, eq_comm] using hline
    rw [hline, getLast?_append h]
    decide
  generalize hl : Layout.mk _ _ _ _ = l'
  have hdone : l'.done = (opened l.indent (texts ++ [last])).reverse ++ l.flush.done := by rw [← hl]
  rw [← hdone] at hsettled
  have hprefix := prefix_foldl_push hsettled (.delim .rbrace :: after)
  rw [hdone, reverse_append, reverse_reverse] at hprefix
  exact ⟨l.indent, (suffix_append _ _).isInfix.trans hprefix.isInfix⟩

end Layout

/-- Fragments after which no bracket is open. -/
def Fragment.Closed (fs : List Fragment) : Prop := fs.foldl Fragment.openAfter 0 = 0

/-- A marker is written by itself, not as a part of a statement. -/
def Fragment.IsMarker : Fragment → Prop
  | .initMain _ | .ret _ _ => True
  | _ => False

namespace Writer
variable {w : Writer} {f : Fragment} {before after : List Fragment} {pieces : List Piece}

theorem step_depth {p q : Progress} (h : w.step p f = .ok q) : q.depth = f.openAfter p.depth := by
  obtain ⟨rfl, -⟩ | ⟨-, hdepth, s, pieces, -, ⟨rfl, -⟩ | ⟨more, -, rfl, -⟩⟩ := step_cases h [] []
  · rfl
  · exact hdepth.symm
  · exact hdepth.symm

theorem foldlM_step_depth {p q : Progress} (h : before.foldlM (step w) p = .ok q) :
    q.depth = before.foldl Fragment.openAfter p.depth := by
  induction before generalizing p with
  | nil =>
    cases h
    rfl
  | cons f before ih =>
    rw [foldlM_cons, bind_eq_ok] at h
    obtain ⟨p₁, hstep, h⟩ := h
    rw [ih h, step_depth hstep, foldl_cons]

theorem fragments_split {dot : Bool}
    (h : w.fragments none dot (before ++ f :: after) = .ok pieces) :
    ∃ dot' first own rest, w.fragment none dot' f = .ok own ∧ pieces = first ++ own ++ rest ∧
      (before = [] → first = []) := by
  induction before generalizing dot pieces with
  | nil =>
    simp only [nil_append, fragments, bind_eq_ok, pure_eq_ok] at h
    obtain ⟨own, hown, rest, -, rfl⟩ := h
    exact ⟨dot, [], own, rest, hown, rfl, fun _ => rfl⟩
  | cons g before ih =>
    simp only [cons_append, fragments, bind_eq_ok, pure_eq_ok] at h
    obtain ⟨head, -, tail, htail, rfl⟩ := h
    obtain ⟨dot', first, own, rest, hown, rfl, -⟩ := ih htail
    exact ⟨dot', head ++ first, own, rest, hown, by simp, fun he => by cases he⟩

theorem pieces_singleton {own : List Piece} (h : w.pieces none [f] = .ok own) :
    w.fragment none false f = .ok own := by
  simp only [Writer.pieces, fragments, bind_eq_ok, pure_eq_ok] at h
  obtain ⟨head, hhead, tail, htail, rfl⟩ := h
  cases htail
  rwa [append_nil]

/-- What a marker is written as stands in what the body is written as, and at its start if the
marker does. -/
theorem statements_split (hf : f.IsMarker) (hclosed : Fragment.Closed before)
    (h : w.statements (before ++ f :: after) = .ok pieces) :
    ∃ dot first own rest, w.fragment none dot f = .ok own ∧ pieces = first ++ own ++ rest ∧
      (before = [] → first = []) := by
  unfold statements at h
  split at h
  · simp only [foldlM_append, foldlM_cons, bind_eq_ok, pure_eq_ok] at h
    obtain ⟨r, ⟨p, hp, q, hq, hr⟩, last, hlast, rfl⟩ := h
    have hdepth : p.depth = 0 := (foldlM_step_depth hp).trans hclosed
    obtain ⟨rest, hrest, -⟩ := foldlM_step_writes hr hlast []
    have hfate : f.fate p.depth = .alone := by
      cases f with
      | initMain | ret => exact if_pos hdepth
      | _ => cases hf
    rw [step_eq, hfate] at hq
    simp only [follow, bind_eq_ok, pure_eq_ok] at hq
    obtain ⟨q, hend, own, hown, rfl⟩ := hq
    obtain ⟨held, hheld, rfl⟩ := endStatement_writes hend []
    refine ⟨false, p.pieces ++ held, own, rest, pieces_singleton hown, hrest, ?_⟩
    rintro rfl
    cases hp
    have hnone : w.pieces none [] = .ok held := hheld
    simpa [Progress.start, Writer.pieces, fragments, eq_comm] using hnone
  · exact fragments_split h

end Writer

/-- A language that writes the markers of an entry point as lines which end with semicolons, those
of a `RETURN` in braces. -/
structure Language.WritesMarkers (l : Language) (u : ShaderUnit) : Prop where
  init : ∀ p ∈ l.initMain u, Layout.Ended p
  returns : ∀ value, ∃ (texts : List String) (last : String),
    l.returns u (some value) = Layout.braced (texts ++ [last]) ∧ last.toList.getLast? = some ';'

/-- The body of an entry point starts with the lines of `INIT_MAIN`, and has the lines of each
`RETURN` of a value that stands outside of brackets, up to the closing brace. -/
structure ShaderUnit.Marks (u : ShaderUnit) (l : Language) (body : List String) : Prop where
  init : Layout.lines 1 (l.initMain u) <+: body
  returns : ∀ before value more loc after,
    u.entry.function.body = before ++ .ret (value :: more) loc :: after → Fragment.Closed before →
    ∃ pieces n, Writer.pieces ⟨l, u, .entry⟩ none value = .ok pieces ∧
      (Layout.lines n (l.returns u (some (Piece.inline pieces)))).dropLast <:+: body

namespace ShaderUnit
variable {u : ShaderUnit} {l : Language} {body : List String}

theorem marks_of_entryBody (hl : l.WritesMarkers u)
    (hstart : EntryPoint.startsOnce u.entry.function.body) (h : Emit.entryBody l u = .ok body) :
    u.Marks l body := by
  simp only [Emit.entryBody, Writer.body, map_eq_ok] at h
  obtain ⟨pieces, hpieces, rfl⟩ := h
  constructor
  · unfold EntryPoint.startsOnce at hstart
    split at hstart
    · next loc fs hbody =>
      have hclosed : Fragment.Closed [] := rfl
      rw [hbody, ← nil_append (Fragment.initMain loc :: fs)] at hpieces
      obtain ⟨dot, first, own, rest, hown, rfl, hfirst⟩ :=
        Writer.statements_split (by trivial) hclosed hpieces
      cases hown
      rw [hfirst rfl, nil_append]
      exact Layout.lines_prefix hl.init 1 rest
    · cases hstart
  · intro before value more loc after hbody hclosed
    rw [hbody] at hpieces
    obtain ⟨dot, first, own, rest, hown, rfl, -⟩ :=
      Writer.statements_split (by trivial) hclosed hpieces
    simp only [Writer.fragment, bind_eq_ok, pure_eq_ok] at hown
    obtain ⟨inner, hinner, rfl⟩ := hown
    obtain ⟨texts, last, htexts, hends⟩ := hl.returns (Piece.inline inner)
    obtain ⟨k, hinfix⟩ := Layout.opened_infix hends 1 first rest
    refine ⟨inner, k, hinner, ?_⟩
    rw [htexts, Layout.lines_braced, dropLast_concat]
    exact hinfix

end ShaderUnit
end ShaderDialect
