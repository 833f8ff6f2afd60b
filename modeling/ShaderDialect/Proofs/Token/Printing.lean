import ShaderDialect.Proofs.Token.Cutting

/-! Tokens that are printed and scanned again. A space or the end of a line stops every token before
it, so the scan of a printed text comes to the tokens that were printed. -/
namespace ShaderDialect
open List

namespace Token

def isDirective : Token → Bool
  | directive _ _ => true
  | _ => false

/-- A directive has a line of its own, and a space stands between other tokens. -/
def gap (t u : Token) : Char := if t.isDirective || u.isDirective then '\n' else ' '

def printChars : List Token → List Char
  | [] => []
  | [t] => t.text.toList
  | t :: u :: ts => t.text.toList ++ gap t u :: printChars (u :: ts)

def print (ts : List Token) : String := String.ofList (printChars ts)

theorem text_directive (name operand : List Char) :
    (directive (String.ofList name) (String.ofList operand)).text.toList =
      '#' :: name ++ (if operand = [] then [] else ' ' :: operand) := by
  cases operand with
  | nil => simp [text]
  | cons c cs =>
    have hne : String.ofList (c :: cs) ≠ "" := by simp
    rw [text.eq_7 _ _ hne]
    simp

end Token

namespace Text

variable (cs : List Char)

theorem trimChars_eq : trimChars cs = (cs.dropWhile isBlank).rdropWhile isBlank := rfl

theorem trimChars_infix : trimChars cs <:+: cs :=
  (List.rdropWhile_prefix _ _).isInfix.trans (dropWhile_suffix _).isInfix

theorem trimChars_trimChars : trimChars (trimChars cs) = trimChars cs := by
  have hfront : (trimChars cs).dropWhile isBlank = trimChars cs := by
    rw [dropWhile_eq_self_iff]
    intro hl
    have hidem := dropWhile_idempotent isBlank cs
    rw [dropWhile_eq_self_iff] at hidem
    obtain ⟨rest, hrest⟩ : trimChars cs <+: cs.dropWhile isBlank := rdropWhile_prefix _ _
    simp only [← hrest, getElem_append_left hl] at hidem
    exact hidem (by simp; omega)
  rw [trimChars_eq (trimChars cs), hfront]
  exact rdropWhile_idempotent _ _

end Text

namespace Scan
open Recognizer
variable {line : Nat} {c : Char} {name : List Char} {ts : List Token}

theorem isPrefix_beforeLineComment (cs : List Char) : beforeLineComment cs <+: cs := by
  fun_induction beforeLineComment cs with
  | case1 => exact prefix_rfl
  | case2 => exact nil_prefix
  | case3 c cs _ ih => exact (prefix_cons_inj c).2 ih

theorem not_comment_beforeLineComment (cs : List Char) :
    ¬ ['/', '/'] <:+: beforeLineComment cs := by
  fun_induction beforeLineComment cs with
  | case1 => decide
  | case2 => decide
  | case3 c cs hfront ih =>
    rw [infix_cons_iff]
    rintro (hcomment | hcomment)
    · have hcs := hcomment.trans ((prefix_cons_inj c).2 (isPrefix_beforeLineComment cs))
      obtain ⟨rest, hrest⟩ := hcs
      exact hfront rest (List.cons.inj hrest).1.symm (List.cons.inj hrest).2.symm
    · exact ih hcomment

theorem beforeLineComment_eq_self {cs : List Char} (h : ¬ ['/', '/'] <:+: cs) :
    beforeLineComment cs = cs := by
  fun_induction beforeLineComment cs with
  | case1 => rfl
  | case2 rest => exact absurd (prefix_append ['/', '/'] rest).isInfix h
  | case3 c cs _ ih => rw [ih fun hcs => h (hcs.trans (suffix_cons c cs).isInfix)]

structure Operand (cs : List Char) : Prop where
  line : '\n' ∉ cs
  trimmed : Text.trimChars cs = cs
  shown : ¬ ['/', '/'] <:+: cs
  ended : cs.getLast? ≠ some '\\'

/-- The tokens that a scan comes to. -/
inductive Scanned : Token → Prop
  | directive {name operand : List Char} : word name = some (name, []) → Operand operand →
      Scanned (.directive (String.ofList name) (String.ofList operand))
  | other {t : Token} {c : Char} {cs : List Char} : t.text.toList = c :: cs → ¬ Text.isBlank c →
      token (c :: cs) = some (t, []) → Scanned t

variable {t : Token} {cs rest : List Char} {lineStart : Bool}

theorem scanned_of_directive (h : directive cs = .ok (t, rest)) : Scanned t := by
  simp only [directive] at h
  split at h
  · cases h
  rename_i name after hname
  split at h
  · cases h
  rename_i hended
  cases h
  have hwithin := Text.trimChars_infix (beforeLineComment (after.takeWhile (· != '\n')))
  refine .directive (cuts_word.whole hname) ⟨fun hmem => ?_, Text.trimChars_trimChars _, ?_, hended⟩
  · have hline := (isPrefix_beforeLineComment _).subset (hwithin.subset hmem)
    simpa using mem_takeWhile_imp hline
  · exact fun hcomment => not_comment_beforeLineComment _ (hcomment.trans hwithin)

theorem scanned_of_step (h : step lineStart cs = .emit t rest) : Scanned t := by
  obtain ⟨after, -, -, hdirective⟩ | ⟨hblank, htoken⟩ := step_emit h
  · exact scanned_of_directive hdirective
  obtain ⟨hcs, hwhole⟩ := token_whole htoken
  cases htext : t.text.toList with
  | nil =>
    rw [htext] at hwhole
    cases hwhole
  | cons c ds =>
    rw [htext] at hwhole hcs
    refine .other htext (fun hc => ?_) hwhole
    rw [hcs, cons_append] at hblank
    simp [run1, hc] at hblank

theorem lexemes_skip {taken : List Char} (h : step lineStart cs = .skip taken rest) :
    lexemes line lineStart cs =
      lexemes (line + taken.count '\n') (lineStart || 0 < taken.count '\n') rest := by
  have hne : cs.isEmpty = false := by
    cases cs with
    | nil => cases h
    | cons c cs => rfl
  rw [lexemes, hne]
  simp only [Bool.false_eq_true, if_false]
  split <;> simp_all

theorem lexemes_emit (h : step lineStart cs = .emit t rest) :
    lexemes line lineStart cs = (lexemes line false rest).map (⟨t, line⟩ :: ·) := by
  have hne : cs.isEmpty = false := by
    cases cs with
    | nil => cases h
    | cons c cs => rfl
  rw [lexemes, hne]
  simp only [Bool.false_eq_true, if_false]
  split
  · simp_all
  · rename_i t' rest' hstep
    obtain ⟨rfl, rfl⟩ := Step.emit.inj (h.symm.trans hstep)
    cases lexemes line false rest <;> rfl
  · simp_all

theorem lexemes_scanned {ls : List Lexeme} (h : lexemes line lineStart cs = .ok ls) :
    ∀ l ∈ ls, Scanned l.token := by
  fun_induction lexemes line lineStart cs generalizing ls with
  | case1 =>
    cases h
    simp
  | case2 =>
    rename_i ih
    exact ih h
  | case3 line lineStart cs _ t rest hstep ls' _ ih =>
    cases h
    rw [forall_mem_cons]
    exact ⟨scanned_of_step hstep, ih ‹_›⟩
  | case4 => cases h
  | case5 => cases h

theorem step_of_token (hblank : ¬ Text.isBlank c) (hhash : c ≠ '#')
    (hcomment : commentStart (c :: cs) = none) (ht : token (c :: cs) = some (t, rest)) :
    step lineStart (c :: cs) = .emit t rest := by
  have hline : exactly ['/', '/'] (c :: cs) = none := by
    simp only [commentStart, Recognizer.or] at hcomment
    split at hcomment
    · assumption
    · cases hcomment
  have hopen : exactly ['/', '*'] (c :: cs) = none := by
    simpa only [commentStart, Recognizer.or, hline] using hcomment
  have hnone : comment (c :: cs) = none := by
    simp only [comment, Recognizer.or, lineComment, blockComment, seq, hline, hopen]
  have hshown : run1 Text.isBlank (c :: cs) = none := by simp [run1, hblank]
  unfold step
  simp only [hshown]
  split
  · exact absurd (List.cons.inj ‹_›).1 hhash
  · simp only [hopen, hnone, ht, Option.isSome_none, Bool.false_and, Bool.false_eq_true, if_false]

theorem front_of_whole (h : token (c :: cs) = some (t, [])) :
    c ≠ '#' ∧ commentStart (c :: cs) = none := by
  constructor
  · rintro rfl
    cases h
  · by_cases hc : '/' = c
    · subst hc
      rcases cs with _ | ⟨d, cs⟩
      · rfl
      by_cases hd : '/' = d
      · subst hd
        cases h
      by_cases hs : '*' = d
      · subst hs
        cases h
      simp [commentStart, Recognizer.or, exactly, hd, hs]
    · simp [commentStart, Recognizer.or, exactly, hc]

/-- The text of a token starts no comment where a character follows that ends the token. -/
theorem commentStart_append {d : Char} (h : token (c :: cs) = some (t, [])) (hd : d ∈ ends t) :
    commentStart (c :: cs ++ d :: rest) = none := by
  rw [steady_commentStart (c :: cs) d (ends_subset_wordEnds t hd) rest, (front_of_whole h).2]
  rfl

theorem step_other (hblank : ¬ Text.isBlank c) (h : token (c :: cs) = some (t, []))
    (htail : ∀ d ∈ rest.head?, d ∈ breaks) : step lineStart (c :: cs ++ rest) = .emit t rest := by
  obtain ⟨hhash, hcomment⟩ := front_of_whole h
  cases rest with
  | nil =>
    rw [append_nil]
    exact step_of_token hblank hhash hcomment h
  | cons d rest =>
    have hd : d ∈ ends t := breaks_subset_ends t (htail d rfl)
    exact step_of_token hblank hhash (commentStart_append h hd) (token_append h hd rest)

theorem word_append (h : word name = some (name, [])) (htail : ∀ d ∈ rest.head?, d ∈ breaks) :
    word (name ++ rest) = some (name, rest) := by
  cases rest with
  | nil => simpa using h
  | cons d rest =>
    have hd : d ∈ wordEnds := breaks_subset_ends (.word "") (htail d rfl)
    rw [steady_word name d hd rest, h]
    rfl

theorem dropWhile_word (h : word name = some (name, [])) :
    (name ++ rest).dropWhile (fun c => c == ' ' || c == '\t') = name ++ rest := by
  cases name with
  | nil => cases h
  | cons d name =>
    have hd : isWordStart d := by
      by_contra hd
      simp [word, seq, one, hd] at h
    have hne : d ≠ ' ' ∧ d ≠ '\t' := by
      constructor <;> (rintro rfl; revert hd; decide)
    simp [hne]

theorem step_directive {operand : List Char} (hname : word name = some (name, []))
    (hoperand : Operand operand) (htail : ∀ d ∈ rest.head?, d = '\n') :
    step true ((Token.directive (String.ofList name) (String.ofList operand)).text.toList ++ rest) =
      .emit (.directive (String.ofList name) (String.ofList operand)) rest := by
  let after := if operand = [] then [] else ' ' :: operand
  have hline : '\n' ∉ after := by
    by_cases hop : operand = [] <;> simp [after, hop, hoperand.line]
  have hshown : Text.trimChars (beforeLineComment after) = operand := by
    by_cases hop : operand = []
    · simp [after, hop, beforeLineComment, Text.trimChars]
    · have hspace : beforeLineComment (' ' :: operand) = ' ' :: operand := by
        simp [beforeLineComment, beforeLineComment_eq_self hoperand.shown]
      have htrim : Text.trimChars (' ' :: operand) = Text.trimChars operand := rfl
      simp only [after, hop, if_false, hspace, htrim, hoperand.trimmed]
  have hbreak : ∀ d ∈ (after ++ rest).head?, d ∈ breaks := by
    intro d hd
    by_cases hop : operand = []
    · have hd : d ∈ rest.head? := by simpa [after, hop] using hd
      simp [htail d hd]
    · have hd : ' ' = d := by simpa [after, hop] using hd
      simp [← hd]
  have hcut : (after ++ rest).takeWhile (· != '\n') = after ∧
      (after ++ rest).dropWhile (· != '\n') = rest := by
    have hpos : ∀ c ∈ after, (c != '\n') = true := by
      intro c hc
      simpa using ne_of_mem_of_not_mem hc hline
    rw [takeWhile_append_of_pos hpos, dropWhile_append_of_pos hpos]
    cases rest with
    | nil => simp
    | cons d rest => simp [htail d rfl]
  have hread : directive (name ++ (after ++ rest)) =
      .ok (.directive (String.ofList name) (String.ofList operand), rest) := by
    simp only [directive, dropWhile_word hname, word_append hname hbreak, hcut, hshown,
      if_neg hoperand.ended]
  have htext : (Token.directive (String.ofList name) (String.ofList operand)).text.toList ++ rest =
      '#' :: (name ++ (after ++ rest)) := by
    rw [Token.text_directive]
    simp [after]
  have hblank : run1 Text.isBlank ('#' :: (name ++ (after ++ rest))) = none := rfl
  rw [htext]
  unfold step
  rw [hblank]
  simp only [if_true, hread]

/-- A token is scanned again where it is printed. -/
theorem step_scanned (ht : Scanned t) (hstart : t.isDirective → lineStart = true)
    (htail : ∀ d ∈ rest.head?, d = '\n' ∨ d = ' ' ∧ ¬ t.isDirective) :
    step lineStart (t.text.toList ++ rest) = .emit t rest := by
  cases ht with
  | directive hname hoperand =>
    obtain rfl := hstart rfl
    refine step_directive hname hoperand fun d hd => ?_
    rcases htail d hd with hd | ⟨-, hnot⟩
    · exact hd
    · exact absurd rfl hnot
  | other htext hblank htoken =>
    rw [htext]
    refine step_other hblank htoken fun d hd => ?_
    rcases htail d hd with rfl | ⟨rfl, -⟩ <;> simp

theorem head_text (ht : Scanned t) : ∃ c cs, t.text.toList = c :: cs ∧ ¬ Text.isBlank c := by
  cases ht with
  | directive _ _ => exact ⟨_, _, Token.text_directive _ _, by decide⟩
  | other htext hblank _ => exact ⟨_, _, htext, hblank⟩

theorem head_printChars (ht : Scanned t) :
    ∃ c cs, Token.printChars (t :: ts) = c :: cs ∧ ¬ Text.isBlank c := by
  obtain ⟨c, cs, htext, hblank⟩ := head_text ht
  cases ts with
  | nil => exact ⟨c, cs, htext, hblank⟩
  | cons u ts => exact ⟨c, _, by rw [Token.printChars, htext, cons_append], hblank⟩

theorem step_gap (hgap : Text.isBlank c) (hrest : ∃ d ds, rest = d :: ds ∧ ¬ Text.isBlank d) :
    step lineStart (c :: rest) = .skip [c] rest := by
  obtain ⟨d, ds, rfl, hd⟩ := hrest
  simp [step, run1, hgap, hd]

/-- The scan of printed tokens comes to them, from any line on. -/
theorem lexemes_printChars (hts : ∀ t ∈ ts, Scanned t) (line : Nat)
    (hstart : ∀ t ∈ ts.head?, t.isDirective → lineStart = true) :
    ∃ ls, lexemes line lineStart (Token.printChars ts) = .ok ls ∧ ls.map Lexeme.token = ts := by
  induction ts generalizing line lineStart with
  | nil => exact ⟨[], by rw [Token.printChars, lexemes]; rfl, rfl⟩
  | cons t ts ih =>
    obtain ⟨ht, hts⟩ := forall_mem_cons.1 hts
    cases ts with
    | nil =>
      have hstep : step lineStart (t.text.toList ++ []) = .emit t [] :=
        step_scanned ht (hstart t rfl) (by simp)
      rw [append_nil] at hstep
      refine ⟨[⟨t, line⟩], ?_, rfl⟩
      rw [Token.printChars, lexemes_emit hstep, lexemes]
      rfl
    | cons u ts =>
      have hu : Scanned u := hts u mem_cons_self
      have htail : ∀ d ∈ (Token.gap t u :: Token.printChars (u :: ts)).head?,
          d = '\n' ∨ d = ' ' ∧ ¬ t.isDirective := by
        rintro d ⟨⟩
        unfold Token.gap
        split <;> simp_all
      have hstep := step_scanned ht (hstart t rfl) htail
      have hgap : Text.isBlank (Token.gap t u) := by
        unfold Token.gap
        split <;> decide
      have hskip : step false (Token.gap t u :: Token.printChars (u :: ts)) =
          .skip [Token.gap t u] (Token.printChars (u :: ts)) := step_gap hgap (head_printChars hu)
      have hline : ∀ v ∈ (u :: ts).head?, v.isDirective →
          (false || decide (0 < [Token.gap t u].count '\n')) = true := by
        rintro _ ⟨⟩ hdirective
        simp [Token.gap, hdirective]
      obtain ⟨ls, hls, htokens⟩ := ih hts (line + [Token.gap t u].count '\n') hline
      refine ⟨⟨t, line⟩ :: ls, ?_, by rw [map_cons, htokens]⟩
      rw [Token.printChars, lexemes_emit hstep, lexemes_skip hskip, hls]
      rfl

/-- The tokens that a scan comes to, directives apart. -/
def Shown (t : Token) : Prop :=
  ∃ c cs, t.text.toList = c :: cs ∧ ¬ Text.isBlank c ∧ token (c :: cs) = some (t, [])

theorem Scanned.shown (h : Scanned t) (hd : t.isDirective = false) : Shown t := by
  cases h with
  | directive _ _ => cases hd
  | other htext hblank htoken => exact ⟨_, _, htext, hblank, htoken⟩

/-- A token is read off the front where a character follows that ends it. -/
theorem tokens?_text_append (ht : Shown t) (hrest : ∀ c ∈ rest.head?, c ∈ ends t) :
    tokens? (t.text.toList ++ rest) = (tokens? rest).map (t :: ·) := by
  obtain ⟨c, cs, htext, hblank, htoken⟩ := ht
  rw [htext]
  cases rest with
  | nil =>
    rw [append_nil, tokens?_of_token hblank (by simp [front_of_whole htoken]) htoken]
  | cons d rest =>
    have hd : d ∈ ends t := hrest d rfl
    have hcomment : (commentStart (c :: cs ++ d :: rest)).isSome = false := by
      rw [commentStart_append htoken hd]
      rfl
    exact tokens?_of_token hblank hcomment (token_append htoken hd rest)

theorem lexemes_dropWhile (line : Nat) (lineStart : Bool) (cs : List Char) : ∃ line' lineStart',
    lexemes line lineStart cs = lexemes line' lineStart' (cs.dropWhile Text.isBlank) := by
  cases cs with
  | nil => exact ⟨line, lineStart, rfl⟩
  | cons c cs =>
    by_cases hc : Text.isBlank c
    · have hskip : step lineStart (c :: cs) =
          .skip (c :: cs.takeWhile Text.isBlank) (cs.dropWhile Text.isBlank) := by
        simp [step, run1, hc]
      rw [dropWhile_cons_of_pos hc]
      exact ⟨_, _, lexemes_skip hskip⟩
    · exact ⟨line, lineStart, by rw [dropWhile_cons_of_neg hc]⟩

/-- A text without comments and directives is scanned to its tokens, from any line on. -/
theorem lexemes_of_tokens? (h : tokens? cs = some ts) (line : Nat) (lineStart : Bool) :
    ∃ ls, lexemes line lineStart cs = .ok ls ∧ ls.map Lexeme.token = ts := by
  fun_induction tokens? cs generalizing ts line lineStart with
  | case1 cs hblank =>
    obtain ⟨line', lineStart', hlexemes⟩ := lexemes_dropWhile line lineStart cs
    cases h
    refine ⟨[], ?_, rfl⟩
    rw [hlexemes, lexemes, if_pos hblank]
  | case2 => cases h
  | case3 cs hne hcomment t rest ht ih =>
    obtain ⟨us, hus, rfl⟩ := Option.map_eq_some_iff.1 h
    obtain ⟨line', lineStart', hlexemes⟩ := lexemes_dropWhile line lineStart cs
    have hstep : step lineStart' (cs.dropWhile Text.isBlank) = .emit t rest := by
      cases hshown : cs.dropWhile Text.isBlank with
      | nil => simp [hshown] at hne
      | cons c ds =>
        rw [hshown] at hcomment ht
        have hblank : ¬ Text.isBlank c := by
          have hidem := dropWhile_idempotent Text.isBlank cs
          rw [hshown, dropWhile_eq_self_iff] at hidem
          simpa using hidem
        have hhash : c ≠ '#' := by
          rintro rfl
          cases ht
        exact step_of_token hblank hhash (by simpa using hcomment) ht
    obtain ⟨ls, hls, htokens⟩ := ih hus line' false
    refine ⟨⟨t, line'⟩ :: ls, ?_, by rw [map_cons, htokens]⟩
    rw [hlexemes, lexemes_emit hstep, hls]
    rfl
  | case4 => cases h

end Scan

theorem tokenize_of_tokens? {text : String} {ts : List Token}
    (h : Scan.tokens? text.toList = some ts) :
    (tokenize text).map (List.map Lexeme.token) = .ok ts := by
  obtain ⟨ls, hls, htokens⟩ := Scan.lexemes_of_tokens? h 1 true
  simp only [tokenize, hls, Except.map, htokens]

/-- Tokens that are printed and scanned again are the same tokens. -/
theorem tokenize_print {text : String} {ls : List Lexeme} (h : tokenize text = .ok ls) :
    (tokenize (Token.print (ls.map Lexeme.token))).map (List.map Lexeme.token) =
      .ok (ls.map Lexeme.token) := by
  have hscanned : ∀ t ∈ ls.map Lexeme.token, Scan.Scanned t := by
    intro t ht
    obtain ⟨l, hl, rfl⟩ := mem_map.1 ht
    exact Scan.lexemes_scanned h l hl
  obtain ⟨ls', hls, htokens⟩ := Scan.lexemes_printChars hscanned 1 (fun _ _ _ => rfl)
  simp only [tokenize, Token.print, String.toList_ofList, hls, Except.map, htokens]

/-- A directive that loses its comment, shapes of numbers, an operator and a colon that follow each
other, and a text that looks like a comment and is three operators. -/
def mixed : String := "# if  A // B\n1.e-2f+.5*2h-0xFul a/*c*/:::b\n/*/"

def mixedTokens : List Token :=
  [.directive "if" "A", .float "1.e-2f", .op "+", .float ".5", .op "*", .float "2h", .op "-",
    .int "0xFu", .word "l", .word "a", .op "::", .delim .colon, .word "b", .op "/",
    .op "*", .op "/"]

theorem tokenize_print_mixed :
    (tokenize mixed).map (List.map Lexeme.token) = .ok mixedTokens ∧
      Token.print mixedTokens = "#if A\n1.e-2f + .5 * 2h - 0xFu l a :: : b / * /" ∧
      (tokenize (Token.print mixedTokens)).map (List.map Lexeme.token) = .ok mixedTokens := by
  have hmixed : (tokenize mixed).map (List.map Lexeme.token) = .ok mixedTokens := by decide +kernel
  refine ⟨hmixed, by decide +kernel, ?_⟩
  cases hls : tokenize mixed with
  | error e =>
    rw [hls] at hmixed
    cases hmixed
  | ok ls =>
    have htokens : ls.map Lexeme.token = mixedTokens := by
      rw [hls] at hmixed
      exact Except.ok.inj hmixed
    exact htokens ▸ tokenize_print hls

end ShaderDialect
