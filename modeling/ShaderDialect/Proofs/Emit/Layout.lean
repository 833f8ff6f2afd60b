import Mathlib.Data.List.Chain
import Mathlib.Data.List.Forall2
import ShaderDialect.Emit.Shader
import ShaderDialect.Proofs.Token.Printing

/-! Tokens that are written as pieces, on one line or laid out into lines, and scanned again. Where
no space is left between two pieces, the first character of the second one ends the first one. -/
namespace ShaderDialect
open List

namespace Token

/-- The piece of a token that is spelled as it is. -/
def piece : Token → Piece
  | op symbol => .op symbol
  | delim d => .delim d
  | t => .word t.text

@[simp] theorem text_piece (t : Token) : t.piece.text = t.text := by
  cases t <;> rfl

theorem piece_eq_delim {t : Token} {d : Delimiter} (h : t.piece = .delim d) : t = .delim d := by
  cases t <;> simp_all [piece]

def isNumber : Token → Bool
  | int _ | float _ => true
  | _ => false

/-- A point and a number side by side, which may read as one number. -/
def pointAtNumber (t u : Token) : Bool :=
  t == .delim .dot && u.isNumber || t.isNumber && u == .delim .dot

end Token

namespace Scan

variable {t u : Token} {rest : List Char}

theorem tokens?_dot (hrest : ∀ c ∈ rest.head?, c.isDigit = false) :
    tokens? ('.' :: rest) = (tokens? rest).map (.delim .dot :: ·) := by
  have hfloat : float ('.' :: rest) = none := float_of_point hrest
  have hquoted : quoted ('.' :: rest) = none := quoted_of_ne (by decide) rest
  refine tokens?_of_token (by decide) rfl ?_
  simp only [token, hquoted, hfloat]
  rfl

theorem Shown.head_not_digit (ht : Shown t) (hnumber : t.isNumber = false) :
    ∀ c ∈ (t.text.toList ++ rest).head?, c.isDigit = false := by
  obtain ⟨c, cs, htext, -, htoken⟩ := ht
  rw [htext]
  rintro _ ⟨⟩
  cases hi : int (c :: cs) with
  | none => exact isDigit_eq_false hi
  | some r =>
    by_contra hdigit
    have hquoted : quoted (c :: cs) = none := by
      refine quoted_of_ne ?_ cs
      rintro rfl
      exact hdigit rfl
    simp only [token, hquoted, hi] at htoken
    split at htoken <;> obtain ⟨rfl, -⟩ := Prod.mk.inj (Option.some.inj htoken) <;> cases hnumber

theorem point_mem_ends (h : t.isNumber = false) : '.' ∈ ends t := by
  cases t <;> simp_all [ends, wordEnds, Token.isNumber]

/-- A piece that clings to what is before it is one character, which ends the token before it. -/
theorem ends_of_clings (h : u.piece.clings = true) (hpoint : t.pointAtNumber u = false) :
    ∃ c, u.text.toList = [c] ∧ c ∈ ends t := by
  obtain ⟨d, rfl⟩ : ∃ d, u = .delim d := by
    cases u <;> simp_all [Token.piece, Piece.clings, Piece.isClosing]
  have hbreaks := breaks_subset_ends t
  cases d with
  | comma => exact ⟨',', rfl, hbreaks (by decide)⟩
  | semicolon => exact ⟨';', rfl, hbreaks (by decide)⟩
  | rparen => exact ⟨')', rfl, hbreaks (by decide)⟩
  | rbracket => exact ⟨']', rfl, hbreaks (by decide)⟩
  | dot => exact ⟨'.', rfl, point_mem_ends (by simp_all [Token.pointAtNumber])⟩
  | lparen | lbracket | lbrace | rbrace | colon => cases h

theorem ends_of_isOpening (h : u.piece.isOpening = true) :
    ∃ c, u.text.toList = [c] ∧ c ∈ ends t := by
  obtain ⟨d, rfl⟩ : ∃ d, u = .delim d := by
    cases u <;> simp_all [Token.piece, Piece.isOpening]
  have hbreaks := breaks_subset_ends t
  cases d with
  | lparen => exact ⟨'(', rfl, hbreaks (by decide)⟩
  | lbracket => exact ⟨'[', rfl, hbreaks (by decide)⟩
  | _ => cases h

theorem tokens?_isOpening (h : t.piece.isOpening = true) :
    tokens? (t.text.toList ++ rest) = (tokens? rest).map (t :: ·) := by
  obtain ⟨d, rfl⟩ : ∃ d, t = .delim d := by
    cases t <;> simp_all [Token.piece, Piece.isOpening]
  cases d with
  | lparen => exact tokens?_lparen rest
  | lbracket => exact tokens?_lbracket rest
  | _ => cases h

/-- Neighbours without a space between them stay apart. -/
theorem tokens?_not_spaced (ht : Shown t) (hu : Shown u) (hpoint : t.pointAtNumber u = false)
    (h : t.piece.spaced u.piece = false) :
    tokens? (t.text.toList ++ (u.text.toList ++ rest)) =
      (tokens? (u.text.toList ++ rest)).map (t :: ·) := by
  have hends : ∀ c, u.text.toList = [c] → c ∈ ends t →
      tokens? (t.text.toList ++ (u.text.toList ++ rest)) =
        (tokens? (u.text.toList ++ rest)).map (t :: ·) := by
    intro c htext hc
    refine tokens?_text_append ht ?_
    rw [htext]
    rintro _ ⟨⟩
    exact hc
  simp only [Piece.spaced, Bool.not_eq_false', Bool.or_eq_true, Bool.and_eq_true, beq_iff_eq] at h
  rcases h with ((hopening | hdot) | hclings) | ⟨-, hopening⟩
  · exact tokens?_isOpening hopening
  · obtain rfl := Token.piece_eq_delim hdot
    exact tokens?_dot (hu.head_not_digit (by simp_all [Token.pointAtNumber]))
  · obtain ⟨c, htext, hc⟩ := ends_of_clings hclings hpoint
    exact hends c htext hc
  · obtain ⟨c, htext, hc⟩ := ends_of_isOpening hopening
    exact hends c htext hc

theorem tokens?_textAfter {ts : List Token} (hts : ∀ u ∈ t :: ts, Shown u)
    (hpoints : (t :: ts).IsChain fun t u => t.pointAtNumber u = false) :
    tokens? (t.text.toList ++ (Piece.textAfter t.piece (ts.map Token.piece)).toList) =
      some (t :: ts) := by
  induction ts generalizing t with
  | nil =>
    have hlast : tokens? (t.text.toList ++ []) = (tokens? []).map (t :: ·) :=
      tokens?_text_append (hts t mem_cons_self) (by simp)
    simpa [Piece.textAfter] using hlast
  | cons u ts ih =>
    obtain ⟨ht, hus⟩ := forall_mem_cons.1 hts
    obtain ⟨hpoint, hpoints⟩ := isChain_cons_cons.1 hpoints
    have hmore := ih hus hpoints
    let more := (Piece.textAfter u.piece (ts.map Token.piece)).toList
    cases hspaced : t.piece.spaced u.piece with
    | true =>
      have hspace : ∀ c ∈ (' ' :: (u.text.toList ++ more)).head?, c ∈ ends t := by
        rintro _ ⟨⟩
        exact breaks_subset_ends t (by decide)
      have hfirst := tokens?_text_append ht hspace
      rw [tokens?_blank, hmore] at hfirst
      simpa [Piece.textAfter, hspaced] using hfirst
    | false =>
      have hfirst : tokens? (t.text.toList ++ (u.text.toList ++ more)) =
          (tokens? (u.text.toList ++ more)).map (t :: ·) :=
        tokens?_not_spaced ht (hus u mem_cons_self) hpoint hspaced
      rw [hmore] at hfirst
      simpa [Piece.textAfter, hspaced] using hfirst

theorem tokens?_inline {ts : List Token} (hts : ∀ t ∈ ts, Shown t)
    (hpoints : ts.IsChain fun t u => t.pointAtNumber u = false) :
    tokens? (Piece.inline (ts.map Token.piece)).toList = some ts := by
  cases ts with
  | nil => simp [Piece.inline]
  | cons t ts => simpa [Piece.inline] using tokens?_textAfter hts hpoints

theorem tokens?_ofLines {lines : List String} {tss : List (List Token)}
    (h : List.Forall₂ (fun line ts => tokens? line.toList = some ts) lines tss) :
    tokens? (Emit.ofLines lines).toList = some tss.flatten := by
  induction h with
  | nil => simp [Emit.ofLines]
  | @cons line ts lines tss hline _ ih =>
    have hcons : (Emit.ofLines (line :: lines)).toList =
        line.toList ++ '\n' :: (Emit.ofLines lines).toList := by
      simp [Emit.ofLines]
    have hblank : tokens? ('\n' :: (Emit.ofLines lines).toList) =
        tokens? (Emit.ofLines lines).toList := tokens?_dropWhile rfl
    rw [hcons, tokens?_append hline (by decide), hblank, ih]
    rfl

theorem tokens?_indentation (n : Nat) (text : String) :
    tokens? (Layout.indentation n ++ text).toList = tokens? text.toList := by
  induction n with
  | zero => simp [Layout.indentation]
  | succ n ih =>
    have hsucc : (Layout.indentation (n + 1) ++ text).toList =
        ' ' :: ' ' :: ' ' :: ' ' :: (Layout.indentation n ++ text).toList := by
      simp [Layout.indentation, replicate_succ]
    simpa only [hsucc, tokens?_blank] using ih

end Scan

namespace Layout
open Scan (Shown tokens?)

variable {l : Layout} {ts us : List Token} {t : Token}

/-- A layout holds some tokens: those of its finished lines, and those of the line under way. -/
def Holds (l : Layout) (ts : List Token) : Prop :=
  ∃ done line, List.Forall₂ (fun text us => tokens? text.toList = some us) l.done done ∧
    l.line = line.map Token.piece ∧ ts = done.reverse.flatten ++ line

theorem Holds.keep (h : l.Holds ts) (t : Token) : (l.keep t.piece).Holds (ts ++ [t]) := by
  obtain ⟨done, line, hdone, hline, rfl⟩ := h
  exact ⟨done, line ++ [t], hdone, by simp [Layout.keep, hline], by simp⟩

theorem Holds.addLine (h : l.Holds ts) (hline : l.line = []) {text : String}
    (htext : tokens? text.toList = some us) : (l.addLine text).Holds (ts ++ us) := by
  obtain ⟨done, line, hdone, hline', rfl⟩ := h
  obtain rfl : line = [] := by simpa [hline] using hline'.symm
  refine ⟨us :: done, [], .cons ?_ hdone, hline, by simp⟩
  rw [Scan.tokens?_indentation, htext]

theorem Holds.flush (h : l.Holds ts) (hts : ∀ t ∈ ts, Shown t)
    (hpoints : ts.IsChain fun t u => t.pointAtNumber u = false) : l.flush.Holds ts := by
  obtain ⟨done, line, hdone, hline, rfl⟩ := h
  cases line with
  | nil =>
    have hflush : l.flush = l := by simp [Layout.flush, hline]
    exact ⟨done, [], by rwa [hflush], by rw [hflush, hline], rfl⟩
  | cons t line =>
    have hinline : tokens? (Piece.inline l.line).toList = some (t :: line) := by
      rw [hline]
      refine Scan.tokens?_inline (fun u hu => hts u (mem_append_right _ hu)) ?_
      exact hpoints.right_of_append
    have hflush : l.flush = { l.addLine (Piece.inline l.line) with line := [] } := by
      simp [Layout.flush, hline]
    rw [hflush]
    refine ⟨(t :: line) :: done, [], .cons ?_ hdone, rfl, by simp⟩
    rw [Scan.tokens?_indentation, hinline]

theorem line_flush (l : Layout) : l.flush.line = [] := by
  cases hline : l.line <;> simp [Layout.flush, hline]

theorem Holds.afterBrace (h : l.Holds ts) {done : List String}
    (hbrace : l.afterBrace? = some done) :
    ({ l with done } : Layout).Holds (ts ++ [.delim .semicolon]) := by
  obtain ⟨tss, line, hdone, hline, rfl⟩ := h
  simp only [afterBrace?] at hbrace
  split at hbrace
  · rename_i last before hempty hlast
    split at hbrace
    · cases hbrace
      obtain rfl : line = [] := by simpa [hempty] using hline.symm
      rw [hlast] at hdone
      cases hdone with
      | @cons _ us _ tss htext hbefore =>
        refine ⟨(us ++ [.delim .semicolon]) :: tss, [], .cons ?_ hbefore, hempty, by simp⟩
        have hend : tokens? [';'] = some [.delim .semicolon] :=
          Scan.tokens?_eq_singleton (by decide)
        simpa [hend] using Scan.tokens?_append htext (c := ';') (by decide) []
    · cases hbrace
  · cases hbrace

/-- A piece adds its token to those that a layout holds. -/
theorem Holds.push (h : l.Holds ts) (hts : ∀ u ∈ ts ++ [t], Shown u)
    (hpoints : (ts ++ [t]).IsChain fun t u => t.pointAtNumber u = false) :
    (l.push t.piece).Holds (ts ++ [t]) := by
  have hflush : l.flush.Holds ts :=
    h.flush (fun u hu => hts u (mem_append_left _ hu)) hpoints.left_of_append
  have hkeep := h.keep t
  cases t with
  | delim d =>
    cases d with
    | lparen | rparen | lbracket | rbracket => exact hkeep
    | comma | colon | dot => exact hkeep
    | lbrace =>
      exact hflush.addLine (line_flush l) (Scan.tokens?_eq_singleton (by decide))
    | rbrace =>
      have hdown : ({ l.flush with indent := l.flush.indent - 1 } : Layout).Holds ts := hflush
      exact hdown.addLine (line_flush l) (Scan.tokens?_eq_singleton (by decide))
    | semicolon =>
      simp only [Token.piece, Layout.push]
      split
      · exact hkeep
      · split
        · exact h.afterBrace ‹_›
        · exact hkeep.flush hts hpoints
  | _ => exact hkeep

theorem Holds.foldl_push (h : l.Holds us) (hts : ∀ t ∈ us ++ ts, Shown t)
    (hpoints : (us ++ ts).IsChain fun t u => t.pointAtNumber u = false) :
    ((ts.map Token.piece).foldl Layout.push l).Holds (us ++ ts) := by
  induction ts generalizing l us with
  | nil => simpa using h
  | cons t ts ih =>
    rw [append_cons] at hts hpoints ⊢
    have hpush := h.push (fun u hu => hts u (mem_append_left _ hu)) hpoints.left_of_append
    exact ih hpush hts hpoints

theorem tokens?_lines (hts : ∀ t ∈ ts, Shown t)
    (hpoints : ts.IsChain fun t u => t.pointAtNumber u = false) (indent : Nat) :
    tokens? (Emit.ofLines (lines indent (ts.map Token.piece))).toList = some ts := by
  have hstart : Holds (start indent) [] := ⟨[], [], .nil, rfl, rfl⟩
  have hpushed := hstart.foldl_push hts hpoints
  obtain ⟨done, line, hdone, hline, htokens⟩ := hpushed.flush hts hpoints
  obtain rfl : line = [] := by simpa [line_flush] using hline.symm
  have hlines := Scan.tokens?_ofLines (rel_reverse hdone)
  rw [lines, hlines]
  simpa using htokens.symm

end Layout

namespace Writer
variable {w : Writer}

theorem token_eq_piece {afterDot : Bool} {t : Token} (h : (w.token afterDot t).text = t.text) :
    w.token afterDot t = t.piece := by
  cases t <;> simp_all [Writer.token, Token.piece, Piece.text, Token.text]

theorem pieces_eq_map {ts : List Placed}
    (h : ∀ t ∈ ts, ∀ afterDot, (w.token afterDot t.token).text = t.token.text) :
    w.pieces none (ts.map .token) = .ok (ts.map fun t => t.token.piece) := by
  suffices ∀ afterDot, w.fragments none afterDot (ts.map .token) =
      .ok (ts.map fun t => t.token.piece) from this false
  induction ts with
  | nil => exact fun _ => rfl
  | cons t ts ih =>
    intro afterDot
    obtain ⟨ht, hts⟩ := forall_mem_cons.1 h
    simp only [map_cons, fragments, fragment, token_eq_piece (ht afterDot), ih hts]
    rfl

end Writer

/-- Tokens without directives, in which no point stands beside a number, are scanned again when they
are written as pieces: on one line, and laid out into lines from any indentation on. The pieces are
those of every writer that spells the tokens as they are. -/
theorem tokenize_layout {text : String} {ls : List Lexeme} (h : tokenize text = .ok ls)
    (hdirectives : ∀ l ∈ ls, l.token.isDirective = false)
    (hpoints : (ls.map Lexeme.token).IsChain fun t u => t.pointAtNumber u = false) :
    let ts := ls.map Lexeme.token
    let pieces := ts.map Token.piece
    (tokenize (Piece.inline pieces)).map (List.map Lexeme.token) = .ok ts ∧
      (∀ indent, (tokenize (Emit.ofLines (Layout.lines indent pieces))).map
        (List.map Lexeme.token) = .ok ts) ∧
      ∀ (w : Writer) (file : String), (∀ t ∈ ts, ∀ afterDot, (w.token afterDot t).text = t.text) →
        w.pieces none (ls.map fun l => .token ⟨l.token, ⟨file, l.line⟩⟩) = .ok pieces := by
  intro ts pieces
  have hts : ∀ t ∈ ts, Scan.Shown t := by
    intro t ht
    obtain ⟨l, hl, rfl⟩ := mem_map.1 ht
    exact (Scan.lexemes_scanned h l hl).shown (hdirectives l hl)
  refine ⟨tokenize_of_tokens? (Scan.tokens?_inline hts hpoints),
    fun indent => tokenize_of_tokens? (Layout.tokens?_lines hts hpoints indent), ?_⟩
  intro w file hspelled
  let placed : List Placed := ls.map fun l => ⟨l.token, ⟨file, l.line⟩⟩
  have hplaced : ∀ t ∈ placed, ∀ afterDot, (w.token afterDot t.token).text = t.token.text := by
    simpa [placed, ts] using hspelled
  simpa [placed, pieces, ts, Function.comp_def] using Writer.pieces_eq_map hplaced

/-- A loop, brackets of several kinds that do not match, a semicolon behind a closing brace and one
by itself, colons, and a point after a text. -/
def looseText : String := "for(i=0;i<4;++i)\x7bx[i].y+=1.5*a;\x7d;;\x7d]b:c::d :\"s\".e-"

def looseTokens : List Token :=
  [.word "for", .delim .lparen, .word "i", .op "=", .int "0", .delim .semicolon, .word "i", .op "<",
    .int "4", .delim .semicolon, .op "++", .word "i", .delim .rparen, .delim .lbrace, .word "x",
    .delim .lbracket, .word "i", .delim .rbracket, .delim .dot, .word "y", .op "+=", .float "1.5",
    .op "*", .word "a", .delim .semicolon, .delim .rbrace, .delim .semicolon, .delim .semicolon,
    .delim .rbrace, .delim .rbracket, .word "b", .delim .colon, .word "c", .op "::", .word "d",
    .delim .colon, .quoted "s", .delim .dot, .word "e", .op "-"]

theorem tokenize_layout_loose :
    (tokenize looseText).map (List.map Lexeme.token) = .ok looseTokens ∧
      Layout.lines 1 (looseTokens.map Token.piece) =
        ["    for(i = 0; i < 4; ++ i)", "    \x7b", "        x[i].y += 1.5 * a;",
          "    \x7d;", "    ;", "\x7d", "] b : c :: d : \"s\".e -"] ∧
      (tokenize (Emit.ofLines (Layout.lines 1 (looseTokens.map Token.piece)))).map
        (List.map Lexeme.token) = .ok looseTokens := by
  have hloose : (tokenize looseText).map (List.map Lexeme.token) = .ok looseTokens := by
    decide +kernel
  refine ⟨hloose, by decide +kernel, ?_⟩
  cases hls : tokenize looseText with
  | error e =>
    rw [hls] at hloose
    cases hloose
  | ok ls =>
    have htokens : ls.map Lexeme.token = looseTokens := by
      rw [hls] at hloose
      exact Except.ok.inj hloose
    have hdirectives : ∀ l ∈ ls, l.token.isDirective = false := by
      have hall : ∀ t ∈ ls.map Lexeme.token, t.isDirective = false := by
        rw [htokens]
        decide
      exact fun l hl => hall l.token (mem_map_of_mem hl)
    have hpoints : (ls.map Lexeme.token).IsChain fun t u => t.pointAtNumber u = false := by
      rw [htokens]
      decide
    exact htokens ▸ (tokenize_layout hls hdirectives hpoints).2.1 1

end ShaderDialect
