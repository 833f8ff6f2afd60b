import ShaderDialect.Text.Blank
import ShaderDialect.Token
import ShaderDialect.Token.Recognizer

/-! Source text as a list of lexemes. Blanks and comments separate tokens and are dropped; a
directive takes the rest of its line. -/
namespace ShaderDialect

inductive ScanFault
  | strayHash
  | malformedDirective
  | continuedDirective
  | openComment
  | unexpected (near : String)
  deriving Repr, DecidableEq

def ScanFault.message : ScanFault → String
  | strayHash => "'#' is only allowed at the start of a line"
  | malformedDirective => "malformed preprocessor directive"
  | continuedDirective => "line continuation in a directive is not supported"
  | openComment => "unterminated block comment"
  | unexpected near => s!"unexpected input near '{near}'"

structure ScanError where
  line : Nat
  fault : ScanFault
  deriving Repr, DecidableEq

def ScanError.message (e : ScanError) : String := s!"line {e.line}: {e.fault.message}"

namespace Scan
open Recognizer
variable {cs rest taken : List Char} {t : Token} {b : Bool}

def isHexDigit (c : Char) : Bool :=
  c.isDigit || ('a' ≤ c && c ≤ 'f') || ('A' ≤ c && c ≤ 'F')

def isWordStart (c : Char) : Bool := c.isAlpha || c == '_'

def isWordRest (c : Char) : Bool := c.isAlphanum || c == '_'

def isFloatSuffix (c : Char) : Bool := c == 'f' || c == 'F' || c == 'h' || c == 'H'

def isIntSuffix (c : Char) : Bool := c == 'u' || c == 'U' || c == 'l' || c == 'L'

def digits : Recognizer := run1 Char.isDigit

def word : Recognizer := seq (one isWordStart) (run isWordRest)

def exponent : Recognizer :=
  seq (one fun c => c == 'e' || c == 'E') (seq (opt (one fun c => c == '+' || c == '-')) digits)

/-- A float has a point, an exponent or a suffix, tried in this order. -/
def float : Recognizer :=
  seq
    (or (seq digits (seq (exactly ['.']) (seq (run Char.isDigit) (opt exponent))))
      (or (seq (exactly ['.']) (seq digits (opt exponent)))
        (or (seq digits exponent) (before digits isFloatSuffix))))
    (opt (one isFloatSuffix))

def int : Recognizer :=
  seq (or (seq (or (exactly ['0', 'x']) (exactly ['0', 'X'])) (run1 isHexDigit)) digits)
    (opt (one isIntSuffix))

/-- A string ends on its own line and has no escapes. -/
def quoted : Recognizer :=
  seq (exactly ['"']) (seq (run fun c => c != '"' && c != '\n') (exactly ['"']))

/-- Operators of several characters, longest first. -/
def longOperators : List String :=
  ["<<=", ">>=", "&&", "||", "==", "!=", "<=", ">=", "+=", "-=", "*=", "/=", "%=", "&=", "|=", "^=",
    "++", "--", "<<", ">>", "->", "::"]

def isOperatorChar (c : Char) : Bool := "+-*/%=<>!&|^~?".toList.contains c

/-- The first text of a list that the input starts with. -/
def anyOf : List (List Char) → Recognizer
  | [], _ => none
  | [] :: more, cs => anyOf more cs
  | (x :: xs) :: more, cs => or (exactly (x :: xs)) (anyOf more) cs

def operator : Recognizer := or (anyOf (longOperators.map String.toList)) (one isOperatorChar)

/-- A colon that another colon follows is the start of an operator. -/
def delimiter : List Char → Option (Delimiter × List Char)
  | '(' :: cs => some (.lparen, cs)
  | ')' :: cs => some (.rparen, cs)
  | '[' :: cs => some (.lbracket, cs)
  | ']' :: cs => some (.rbracket, cs)
  | '\x7b' :: cs => some (.lbrace, cs)
  | '\x7d' :: cs => some (.rbrace, cs)
  | ',' :: cs => some (.comma, cs)
  | ';' :: cs => some (.semicolon, cs)
  | ':' :: ':' :: _ => none
  | ':' :: cs => some (.colon, cs)
  | '.' :: cs => some (.dot, cs)
  | _ => none

def lineComment : Recognizer := seq (exactly ['/', '/']) (run (· != '\n'))

def blockComment : Recognizer := seq (exactly ['/', '*']) throughClose

def comment : Recognizer := or lineComment blockComment

def unquote (cs : List Char) : String := String.ofList (cs.drop 1).dropLast

/-- The token at the front, comments and directives apart. -/
def token (cs : List Char) : Option (Token × List Char) :=
  match quoted cs with
  | some (a, rest) => some (.quoted (unquote a), rest)
  | none => match float cs with
  | some (a, rest) => some (.float (String.ofList a), rest)
  | none => match int cs with
  | some (a, rest) => some (.int (String.ofList a), rest)
  | none => match word cs with
  | some (a, rest) => some (.word (String.ofList a), rest)
  | none => match operator cs with
  | some (a, rest) => some (.op (String.ofList a), rest)
  | none => match delimiter cs with
  | some (d, rest) => some (.delim d, rest)
  | none => none

/-- The text before the first `//`. -/
def beforeLineComment : List Char → List Char
  | [] => []
  | '/' :: '/' :: _ => []
  | c :: cs => c :: beforeLineComment cs

/-- The directive after a `#`. A line comment is not part of the operand. -/
def directive (cs : List Char) : Except ScanFault (Token × List Char) :=
  match word (cs.dropWhile fun c => c == ' ' || c == '\t') with
  | none => .error .malformedDirective
  | some (name, cs) =>
    let operand := Text.trimChars (beforeLineComment (cs.takeWhile (· != '\n')))
    if operand.getLast? = some '\\' then .error .continuedDirective
    else .ok (.directive (String.ofList name) (String.ofList operand), cs.dropWhile (· != '\n'))

inductive Step
  | skip (taken rest : List Char)
  | emit (token : Token) (rest : List Char)
  | stop (fault : ScanFault)

def step (lineStart : Bool) (cs : List Char) : Step :=
  match run1 Text.isBlank cs with
  | some (taken, rest) => .skip taken rest
  | none =>
    match cs with
    | '#' :: rest =>
      if lineStart then
        match directive rest with
        | .ok (t, rest) => .emit t rest
        | .error e => .stop e
      else .stop .strayHash
    | _ =>
      if (exactly ['/', '*'] cs).isSome && (throughClose cs).isNone then .stop .openComment
      else match comment cs with
        | some (taken, rest) => .skip taken rest
        | none =>
          match token cs with
          | some (t, rest) => .emit t rest
          | none => .stop (.unexpected (String.ofList (cs.take 16)))

theorem consumes_digits : digits.Consumes := consumes_run1

theorem consumes_word : word.Consumes := consumes_one.seq splits_run

theorem consumes_exponent : exponent.Consumes :=
  consumes_one.seq (consumes_one.splits.opt.seq consumes_digits.splits)

theorem consumes_float : float.Consumes :=
  ((consumes_digits.seq
      ((splits_exactly _).seq (splits_run.seq consumes_exponent.splits.opt))).or
    (((consumes_exactly_cons _ _).seq (consumes_digits.splits.seq consumes_exponent.splits.opt)).or
      ((consumes_digits.seq consumes_exponent.splits).or consumes_digits.before))).seq
    consumes_one.splits.opt

theorem consumes_int : int.Consumes :=
  ((((consumes_exactly_cons _ _).or (consumes_exactly_cons _ _)).seq consumes_run1.splits).or
    consumes_digits).seq consumes_one.splits.opt

theorem consumes_quoted : quoted.Consumes :=
  (consumes_exactly_cons _ _).seq (splits_run.seq (splits_exactly _))

theorem consumes_anyOf (texts : List (List Char)) : (anyOf texts).Consumes := by
  induction texts with
  | nil => intro cs a b e; simp [anyOf] at e
  | cons t more ih =>
    cases t with
    | nil => intro cs a b e; exact ih cs a b (by simpa [anyOf] using e)
    | cons x xs =>
      intro cs a b e
      exact ((consumes_exactly_cons x xs).or ih) cs a b (by simpa [anyOf] using e)

theorem consumes_operator : operator.Consumes := (consumes_anyOf _).or consumes_one

theorem consumes_comment : comment.Consumes :=
  ((consumes_exactly_cons _ _).seq splits_run).or
    ((consumes_exactly_cons _ _).seq consumes_throughClose.splits)

theorem delimiter_length {d : Delimiter} (h : delimiter cs = some (d, rest)) :
    rest.length < cs.length := by
  unfold delimiter at h
  split at h <;> simp_all

theorem token_length (h : token cs = some (t, rest)) : rest.length < cs.length := by
  unfold token at h
  repeat' split at h
  all_goals cases h
  · exact consumes_quoted.length_lt ‹_›
  · exact consumes_float.length_lt ‹_›
  · exact consumes_int.length_lt ‹_›
  · exact consumes_word.length_lt ‹_›
  · exact consumes_operator.length_lt ‹_›
  · exact delimiter_length ‹_›

theorem length_dropWhile_le (p : Char → Bool) (cs : List Char) :
    (cs.dropWhile p).length ≤ cs.length := (List.dropWhile_sublist p).length_le

theorem directive_length (h : directive cs = .ok (t, rest)) : rest.length < cs.length := by
  simp only [directive] at h
  split at h
  · simp at h
  · rename_i name cs' hw
    split at h
    · simp at h
    · simp only [Except.ok.injEq, Prod.mk.injEq] at h
      have h₁ := consumes_word.length_lt hw
      have h₂ := length_dropWhile_le (fun c => c == ' ' || c == '\t') cs
      have h₃ := length_dropWhile_le (· != '\n') cs'
      rw [← h.2]
      omega

/-- Only blanks and comments are passed over. -/
theorem step_skip (h : step b cs = .skip taken rest) :
    run1 Text.isBlank cs = some (taken, rest) ∨ comment cs = some (taken, rest) := by
  unfold step at h
  repeat' split at h
  all_goals cases h
  · exact .inl ‹_›
  · exact .inr ‹_›

/-- A token stands for itself, and a directive only at the start of a line. -/
theorem step_emit (h : step b cs = .emit t rest) :
    (∃ after, cs = '#' :: after ∧ b = true ∧ directive after = .ok (t, rest)) ∨
      run1 Text.isBlank cs = none ∧ token cs = some (t, rest) := by
  unfold step at h
  repeat' split at h
  all_goals cases h
  · exact .inl ⟨_, rfl, ‹_›, ‹_›⟩
  · exact .inr ⟨‹_›, ‹_›⟩

theorem step_skip_length (h : step b cs = .skip taken rest) : rest.length < cs.length :=
  (step_skip h).elim consumes_run1.length_lt consumes_comment.length_lt

theorem step_emit_length (h : step b cs = .emit t rest) : rest.length < cs.length := by
  obtain ⟨after, rfl, -, hdirective⟩ | ⟨-, htoken⟩ := step_emit h
  · exact Nat.lt_succ_of_lt (directive_length hdirective)
  · exact token_length htoken

/-- The lexemes of the rest of a text, from a given line on. `lineStart` says that only blanks and
comments stand before on this line. -/
def lexemes (line : Nat) (lineStart : Bool) (cs : List Char) : Except ScanError (List Lexeme) :=
  if cs.isEmpty then .ok []
  else match _ : step lineStart cs with
    | .skip taken rest =>
      let newlines := taken.count '\n'
      lexemes (line + newlines) (lineStart || 0 < newlines) rest
    | .emit t rest =>
      match lexemes line false rest with
      | .ok ls => .ok (⟨t, line⟩ :: ls)
      | .error e => .error e
    | .stop fault => .error ⟨line, fault⟩
termination_by cs.length
decreasing_by
  · exact step_skip_length ‹_›
  · exact step_emit_length ‹_›

end Scan

def tokenize (text : String) : Except ScanError (List Lexeme) := Scan.lexemes 1 true text.toList

end ShaderDialect
