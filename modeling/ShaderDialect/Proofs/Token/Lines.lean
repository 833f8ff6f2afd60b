import ShaderDialect.Proofs.Token.Printing

/-! Where the tokens of a text stand. Only blanks and comments are between them, and the line of a
token is one more than the number of line ends before it. -/
namespace ShaderDialect
open List

/-- How a token is written. A directive takes the rest of its line. -/
def Token.Written : Token → List Char → Prop
  | directive name operand, taken => ∃ blanks line : List Char,
      (∀ c ∈ blanks, c = ' ' ∨ c = '\t') ∧ '\n' ∉ line ∧
        taken = '#' :: (blanks ++ (name.toList ++ line)) ∧
        operand = String.ofList (Text.trimChars (Scan.beforeLineComment line))
  | t, taken => taken = t.text.toList

namespace Recognizer
variable {m : Recognizer} {cs a b : List Char}

theorem Steady.not_mem {stops : List Char} {c : Char} (h : m.Steady stops) (hm : m.Splits)
    (e : m cs = some (a, b)) (hc : c ∈ stops) : c ∉ a := by
  intro hmem
  obtain ⟨u, v, rfl⟩ := append_of_mem hmem
  have hcs : cs = u ++ c :: (v ++ b) := by simpa using (hm cs _ b e).symm
  rw [hcs, h u c hc] at e
  obtain ⟨r, -, hr⟩ := Option.map_eq_some_iff.1 e
  have hlength := congrArg (fun r => r.2.length) hr
  simp at hlength
  omega

theorem throughClose_eq_none_iff : throughClose cs = none ↔ ¬ ['*', '/'] <:+: cs := by
  fun_induction throughClose cs with
  | case1 => simp
  | case2 c => simp [infix_cons_iff]
  | case3 c d cs h => simp [h, infix_cons_iff]
  | case4 c d cs h ih =>
    have hfront : ¬ ['*', '/'] <+: c :: d :: cs := by simpa [eq_comm] using h
    rw [Option.map_eq_none_iff, ih, infix_cons_iff (a := c)]
    simp [hfront]

/-- The match ends at the first closing mark. -/
theorem throughClose_eq_some (h : throughClose cs = some (a, b)) :
    ∃ body, a = body ++ ['*', '/'] ∧ ¬ ['*', '/'] <:+: body := by
  fun_induction throughClose cs generalizing a with
  | case1 => cases h
  | case2 => cases h
  | case3 c d cs hcd =>
    obtain ⟨rfl, rfl⟩ := hcd
    cases h
    exact ⟨[], rfl, by decide⟩
  | case4 c d cs hcd ih =>
    obtain ⟨⟨a', b'⟩, he, hab⟩ := Option.map_eq_some_iff.1 h
    cases hab
    obtain ⟨body, rfl, hbody⟩ := ih he
    refine ⟨c :: body, rfl, ?_⟩
    rw [infix_cons_iff]
    rintro (hfront | hwithin)
    · -- the first character of the body is the second one of the text
      have hcs := (consumes_throughClose _ _ _ he).1
      cases body with
      | nil => simp at hfront
      | cons e body =>
        cases hcs
        exact hcd (by simpa [eq_comm] using hfront)
    · exact hbody hwithin

end Recognizer

namespace Scan
open Recognizer
variable {cs gap taken rest before : List Char} {t : Token} {line : Nat} {lineStart : Bool}

/-- Blanks and comments that the given text follows. A line comment goes on to the end of its line,
and a block comment to the first closing mark. -/
inductive Gap : List Char → List Char → Prop
  | nil (rest : List Char) : Gap [] rest
  | blank {gap rest : List Char} {c : Char} : Gap gap (c :: rest) → Text.isBlank c →
      Gap (gap ++ [c]) rest
  | line {gap body rest : List Char} : Gap gap ('/' :: '/' :: body ++ rest) → '\n' ∉ body →
      (∀ c ∈ rest.head?, c = '\n') → Gap (gap ++ '/' :: '/' :: body) rest
  | block {gap body rest : List Char} : Gap gap ('/' :: '*' :: body ++ '*' :: '/' :: rest) →
      ¬ ['*', '/'] <:+: body → Gap (gap ++ ('/' :: '*' :: body ++ ['*', '/'])) rest

theorem Gap.blanks (h : Gap gap (taken ++ rest)) (hblank : ∀ c ∈ taken, Text.isBlank c) :
    Gap (gap ++ taken) rest := by
  induction taken generalizing gap with
  | nil => simpa using h
  | cons c taken ih =>
    obtain ⟨hc, hblank⟩ := forall_mem_cons.1 hblank
    simpa using ih (h.blank hc) hblank

theorem Gap.comment (h : Gap gap cs) (hc : comment cs = some (taken, rest)) :
    Gap (gap ++ taken) rest := by
  simp only [Scan.comment, Recognizer.or] at hc
  split at hc
  · obtain ⟨x, y, z, hx, hz, rfl⟩ := seq_eq_some hc
    obtain ⟨rfl, rfl⟩ := exactly_eq_some_iff.1 hx
    obtain ⟨body, rfl, hbody⟩ := throughClose_eq_some hz
    have hy := (consumes_throughClose _ _ _ hz).1
    exact Gap.block (by simpa [← hy] using h) hbody
  · rename_i hline
    cases hc
    obtain ⟨x, y, z, hx, hz, rfl⟩ := seq_eq_some hline
    obtain ⟨rfl, rfl⟩ := exactly_eq_some_iff.1 hx
    have hy := splits_run _ _ _ hz
    cases hz
    refine Gap.line (by simpa [hy] using h) (fun hmem => ?_) fun c hc => ?_
    · simpa using mem_takeWhile_imp hmem
    · have hstop := head?_dropWhile_not (· != '\n') y
      rw [Option.mem_def.1 hc] at hstop
      simpa using hstop

theorem splits_step_skip (h : step lineStart cs = .skip taken rest) : taken ++ rest = cs := by
  rcases step_skip h with h | h
  · exact (consumes_run1 _ _ _ h).1
  · exact (consumes_comment _ _ _ h).1

theorem Gap.skip (h : Gap gap cs) (hstep : step lineStart cs = .skip taken rest) :
    Gap (gap ++ taken) rest := by
  rcases step_skip hstep with hblank | hcomment
  · rw [← splits_step_skip hstep] at h
    exact h.blanks (madeOf_run1 (fun _ hc => hc) cs taken rest hblank)
  · exact h.comment hcomment

theorem newline_not_mem_text (h : token cs = some (t, rest)) :
    '\n' ∉ t.text.toList ∧ t.isDirective = false := by
  have hquoted : quoted.Steady ['\n'] := (steady_exactly (by decide)).seq
    ((steady_run (by decide)).seq (steady_exactly (by decide)))
  unfold token at h
  repeat' split at h
  all_goals cases h
  · rename_i hq
    rw [quoted_eq_some hq]
    exact ⟨hquoted.not_mem consumes_quoted.splits hq (by decide), rfl⟩
  · simpa [Token.text, Token.isDirective] using
      steady_float.not_mem consumes_float.splits ‹_› (c := '\n') (by decide)
  · simpa [Token.text, Token.isDirective] using
      steady_int.not_mem consumes_int.splits ‹_› (c := '\n') (by decide)
  · simpa [Token.text, Token.isDirective] using
      steady_word.not_mem consumes_word.splits ‹_› (c := '\n') (by decide)
  · simpa [Token.text, Token.isDirective] using
      steady_operator.not_mem consumes_operator.splits ‹_› (c := '\n') (by decide)
  · rename_i d _
    cases d <;> decide

theorem written_of_directive (h : directive cs = .ok (t, rest)) :
    ∃ taken, taken ++ rest = '#' :: cs ∧ t.Written taken ∧ '\n' ∉ taken := by
  simp only [directive] at h
  split at h
  · cases h
  rename_i name after hname
  split at h
  · cases h
  cases h
  have hblanks : ∀ c ∈ cs.takeWhile fun c => c == ' ' || c == '\t', c = ' ' ∨ c = '\t' := by
    intro c hc
    simpa using mem_takeWhile_imp hc
  have hline : '\n' ∉ after.takeWhile (· != '\n') := by
    intro hmem
    simpa using mem_takeWhile_imp hmem
  refine ⟨_, ?_, ⟨_, _, hblanks, hline, rfl, rfl⟩, ?_⟩
  · have hcs : name ++ after = _ := (consumes_word _ _ _ hname).1
    simp [takeWhile_append_dropWhile, hcs]
  · have hword := steady_word.not_mem consumes_word.splits hname (c := '\n') (by decide)
    simp only [String.toList_ofList, mem_cons, mem_append, not_or]
    refine ⟨by decide, fun hmem => ?_, hword, hline⟩
    simpa using hblanks _ hmem

theorem written_of_step (h : step lineStart cs = .emit t rest) :
    ∃ taken, taken ++ rest = cs ∧ t.Written taken ∧ '\n' ∉ taken ∧
      (t.isDirective → lineStart = true) := by
  obtain ⟨after, rfl, hstart, hdirective⟩ | ⟨-, htoken⟩ := step_emit h
  · obtain ⟨taken, hcs, hwritten, hline⟩ := written_of_directive hdirective
    exact ⟨taken, hcs, hwritten, hline, fun _ => hstart⟩
  · obtain ⟨hline, hnot⟩ := newline_not_mem_text htoken
    refine ⟨t.text.toList, (token_whole htoken).1.symm, ?_, hline, by simp [hnot]⟩
    cases t with
    | directive => cases hnot
    | _ => rfl

/-- The lexemes of a text that another one is before. Each token is written after a gap, and its
line is counted from the start. Before a directive there is only a gap on its line. -/
inductive Laid : List Char → List Char → List Lexeme → Prop
  | nil {before gap : List Char} : Gap gap [] → Laid before gap []
  | cons {before gap taken rest : List Char} {t : Token} {ls : List Lexeme} :
      Gap gap (taken ++ rest) → t.Written taken →
      (t.isDirective → (before ++ gap).rtakeWhile (· != '\n') <:+ gap) →
      Laid (before ++ gap ++ taken) rest ls →
      Laid before (gap ++ taken ++ rest) (⟨t, 1 + (before ++ gap).count '\n'⟩ :: ls)

theorem rtakeWhile_suffix_of_lineStart (h : before = [] ∨ '\n' ∈ gap) :
    (before ++ gap).rtakeWhile (· != '\n') <:+ gap := by
  rcases h with rfl | h
  · exact rtakeWhile_suffix _ _
  · rcases suffix_or_suffix_of_suffix (rtakeWhile_suffix _ _) (suffix_append before gap)
      with hwithin | hover
    · exact hwithin
    · exact absurd (mem_rtakeWhile_imp (hover.subset h)) (by simp)

/-- What has been passed over since the last token is the gap before the next one. -/
theorem laid_of_lexemes {ls : List Lexeme} (h : lexemes line lineStart cs = .ok ls)
    (hgap : Gap gap cs) (hline : line = 1 + (before ++ gap).count '\n')
    (hstart : lineStart → before = [] ∨ '\n' ∈ gap) : Laid before (gap ++ cs) ls := by
  fun_induction lexemes line lineStart cs generalizing ls before gap with
  | case1 line lineStart cs hempty =>
    obtain rfl := isEmpty_iff.1 hempty
    cases h
    rw [append_nil]
    exact .nil hgap
  | case2 line lineStart cs _ taken rest hstep newlines =>
    rename_i ih
    rw [← splits_step_skip hstep, ← append_assoc]
    refine ih h (hgap.skip hstep) ?_ fun hlater => ?_
    · simp only [hline, newlines, count_append]
      omega
    · simp only [newlines, Bool.or_eq_true, decide_eq_true_eq, count_pos_iff] at hlater
      rw [mem_append]
      tauto
  | case3 line lineStart cs _ t rest hstep ls' hls ih =>
    cases h
    obtain ⟨taken, rfl, hwritten, hshort, hdirective⟩ := written_of_step hstep
    rw [hline, ← append_assoc]
    refine .cons hgap hwritten (fun hd => ?_) ?_
    · exact rtakeWhile_suffix_of_lineStart (hstart (hdirective hd))
    · have hcount : taken.count '\n' = 0 := count_eq_zero.2 hshort
      refine ih hls (.nil rest) ?_ (by simp)
      simp only [hline, append_nil, count_append, hcount]
      omega
  | case4 => cases h
  | case5 => cases h

/-- The places that the scan of a text comes to: a line, whether only blanks and comments are before
on it, and the rest of the text. -/
inductive Reaches (text : String) : Nat → Bool → List Char → Prop
  | start : Reaches text 1 true text.toList
  | skip {line : Nat} {lineStart : Bool} {cs taken rest : List Char} :
      Reaches text line lineStart cs → step lineStart cs = .skip taken rest →
      Reaches text (line + taken.count '\n') (lineStart || 0 < taken.count '\n') rest
  | emit {line : Nat} {lineStart : Bool} {cs rest : List Char} {t : Token} :
      Reaches text line lineStart cs → step lineStart cs = .emit t rest →
      Reaches text line false rest

theorem Reaches.tokenize_eq {text : String} (h : Reaches text line lineStart cs) :
    ∃ ls, tokenize text = (lexemes line lineStart cs).map (ls ++ ·) := by
  induction h with
  | start =>
    refine ⟨[], ?_⟩
    rw [tokenize]
    cases lexemes 1 true text.toList <;> rfl
  | skip _ hstep ih =>
    obtain ⟨ls, hls⟩ := ih
    exact ⟨ls, by rw [hls, lexemes_skip hstep]⟩
  | @emit line _ _ rest t _ hstep ih =>
    obtain ⟨ls, hls⟩ := ih
    refine ⟨ls ++ [⟨t, line⟩], ?_⟩
    rw [hls, lexemes_emit hstep]
    cases lexemes line false rest <;> simp [Except.map]

theorem lexemes_stop {fault : ScanFault} (hne : cs ≠ []) (h : step lineStart cs = .stop fault) :
    lexemes line lineStart cs = .error ⟨line, fault⟩ := by
  rw [lexemes, if_neg (by simpa using hne)]
  split <;> simp_all

variable {tail a : List Char}

theorem throughClose_open :
    throughClose ('/' :: '*' :: tail) = none ↔ tail.head? ≠ some '/' ∧ ¬ ['*', '/'] <:+: tail := by
  rw [throughClose_eq_none_iff, infix_cons_iff, infix_cons_iff]
  cases tail <;> simp [eq_comm (a := '/')]

theorem step_blockComment (h : throughClose tail = some (a, rest)) :
    step lineStart ('/' :: '*' :: tail) = .skip ('/' :: '*' :: a) rest := by
  have hblank : run1 Text.isBlank ('/' :: '*' :: tail) = none := rfl
  have hclosed : throughClose ('/' :: '*' :: tail) ≠ none := by
    intro hnone
    have htail := throughClose_eq_none_iff.2 (throughClose_open.1 hnone).2
    rw [h] at htail
    cases htail
  have hcomment : comment ('/' :: '*' :: tail) = some ('/' :: '*' :: a, rest) := by
    simp [comment, Recognizer.or, lineComment, blockComment, seq, exactly, h]
  simp [step, hblank, hclosed, hcomment]

theorem step_openComment (h : throughClose ('/' :: '*' :: tail) = none) :
    step lineStart ('/' :: '*' :: tail) = .stop .openComment := by
  have hblank : run1 Text.isBlank ('/' :: '*' :: tail) = none := rfl
  simp [step, hblank, h, exactly]

/-- An opening mark that shares its star with a closing one, and is not closed after it, is two
operators. -/
theorem lexemes_overlap (h : ¬ ['*', '/'] <:+: '/' :: tail) :
    lexemes line lineStart ('/' :: '*' :: '/' :: tail) =
      (lexemes line false ('/' :: tail)).map ([⟨.op "/", line⟩, ⟨.op "*", line⟩] ++ ·) := by
  have hopen : throughClose ('/' :: tail) = none := throughClose_eq_none_iff.2 h
  have hclosed : throughClose ('/' :: '*' :: '/' :: tail) ≠ none := by simp [throughClose_open]
  have hblank : run1 Text.isBlank ('/' :: '*' :: '/' :: tail) = none := rfl
  have hcomment : comment ('/' :: '*' :: '/' :: tail) = none := by
    simp [comment, Recognizer.or, lineComment, blockComment, seq, exactly, hopen]
  have htoken : token ('/' :: '*' :: '/' :: tail) = some (.op "/", '*' :: '/' :: tail) := rfl
  have hslash :
      step lineStart ('/' :: '*' :: '/' :: tail) = .emit (.op "/") ('*' :: '/' :: tail) := by
    simp [step, hblank, hclosed, hcomment, htoken]
  have hstar : step false ('*' :: '/' :: tail) = .emit (.op "*") ('/' :: tail) := rfl
  rw [lexemes_emit hslash, lexemes_emit hstar]
  cases lexemes line false ('/' :: tail) <;> rfl

end Scan

/-- The tokens of a text stand in it one after the other, with gaps between them, on the lines that
their lexemes say. -/
theorem tokenize_laid {text : String} {ls : List Lexeme} (h : tokenize text = .ok ls) :
    Scan.Laid [] text.toList ls := by
  have hlaid : Scan.Laid [] ([] ++ text.toList) ls :=
    Scan.laid_of_lexemes h (.nil _) rfl fun _ => .inl rfl
  rwa [nil_append] at hlaid

/-- Comments of both kinds that end lines and go over them, a directive after one and a string. -/
def spread : String := "a // b\n/* c\nd */ e /*\n*/ # if  F // g\n\t\"h\" i"

def spreadLexemes : List Lexeme :=
  [⟨.word "a", 1⟩, ⟨.word "e", 3⟩, ⟨.directive "if" "F", 4⟩, ⟨.quoted "h", 5⟩, ⟨.word "i", 5⟩]

theorem tokenize_laid_spread :
    tokenize spread = .ok spreadLexemes ∧ Scan.Laid [] spread.toList spreadLexemes := by
  have hspread : tokenize spread = .ok spreadLexemes := by decide +kernel
  exact ⟨hspread, tokenize_laid hspread⟩

/-- Where a block comment opens, the text is passed over up to the first closing mark. Without one,
the scan fails there, unless the next character makes a closing mark of the opening one: then the
opening mark is two operators, and the scan goes on after them. -/
theorem tokenize_blockComment {text : String} {line : Nat} {lineStart : Bool} {tail : List Char}
    (h : Scan.Reaches text line lineStart ('/' :: '*' :: tail)) :
    (['*', '/'] <:+: tail → ∃ body rest, tail = body ++ '*' :: '/' :: rest ∧
      ¬ ['*', '/'] <:+: body ∧
      Scan.step lineStart ('/' :: '*' :: tail) = .skip ('/' :: '*' :: body ++ ['*', '/']) rest) ∧
    (¬ ['*', '/'] <:+: tail →
      (tail.head? ≠ some '/' → tokenize text = .error ⟨line, .openComment⟩) ∧
      (tail.head? = some '/' → ∃ ls, tokenize text = (Scan.lexemes line false tail).map
        (ls ++ [⟨.op "/", line⟩, ⟨.op "*", line⟩] ++ ·))) := by
  obtain ⟨ls, hls⟩ := h.tokenize_eq
  refine ⟨fun hclose => ?_, fun hopen => ⟨fun hhead => ?_, fun hhead => ?_⟩⟩
  · obtain ⟨⟨a, rest⟩, ha⟩ := Option.ne_none_iff_exists'.1
      (mt Recognizer.throughClose_eq_none_iff.1 (not_not_intro hclose))
    obtain ⟨body, rfl, hbody⟩ := Recognizer.throughClose_eq_some ha
    refine ⟨body, rest, ?_, hbody, Scan.step_blockComment ha⟩
    simpa using (Recognizer.consumes_throughClose _ _ _ ha).1.symm
  · have hstop : Scan.step lineStart ('/' :: '*' :: tail) = .stop .openComment :=
      Scan.step_openComment (Scan.throughClose_open.2 ⟨hhead, hopen⟩)
    rw [hls, Scan.lexemes_stop (by simp) hstop]
    rfl
  · obtain ⟨more, rfl⟩ := head?_eq_some_iff.1 hhead
    refine ⟨ls, ?_⟩
    rw [hls, Scan.lexemes_overlap hopen]
    cases Scan.lexemes line false ('/' :: more) <;> simp [Except.map]

/-- A comment that opens on the second line and is not closed. -/
def overlapping : String := "a\n/*/"

theorem tokenize_blockComment_overlapping :
    Scan.Reaches overlapping 2 true ['/', '*', '/'] ∧
      tokenize overlapping = .ok [⟨.word "a", 1⟩, ⟨.op "/", 2⟩, ⟨.op "*", 2⟩, ⟨.op "/", 2⟩] ∧
      ∃ ls, tokenize overlapping =
        (Scan.lexemes 2 false ['/']).map (ls ++ [⟨.op "/", 2⟩, ⟨.op "*", 2⟩] ++ ·) := by
  have hword : Scan.Reaches overlapping 1 false ['\n', '/', '*', '/'] := .emit .start rfl
  have hline : Scan.Reaches overlapping 2 true ['/', '*', '/'] := .skip hword rfl
  exact ⟨hline, by decide +kernel, ((tokenize_blockComment hline).2 (by decide)).2 rfl⟩

end ShaderDialect
