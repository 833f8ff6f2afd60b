/-! Tokens of the dialect, and where they stand in the source. -/
namespace ShaderDialect

/-- Brackets and separators. -/
inductive Delimiter
  | lparen | rparen | lbracket | rbracket | lbrace | rbrace | comma | semicolon | colon | dot
  deriving Repr, DecidableEq, Inhabited

namespace Delimiter

def text : Delimiter → String
  | lparen => "("
  | rparen => ")"
  | lbracket => "["
  | rbracket => "]"
  | lbrace => "\x7b"
  | rbrace => "\x7d"
  | comma => ","
  | semicolon => ";"
  | colon => ":"
  | dot => "."

def opens : Delimiter → Bool
  | lparen | lbracket | lbrace => true
  | _ => false

def closes : Delimiter → Bool
  | rparen | rbracket | rbrace => true
  | _ => false

end Delimiter

/-- A token. The text of literals is kept as written, suffixes included, so that a generator can
emit it again. A directive is a whole line `#name rest`. -/
inductive Token
  | word (name : String)
  | int (text : String)
  | float (text : String)
  | quoted (text : String)
  | directive (name rest : String)
  | op (symbol : String)
  | delim (d : Delimiter)
  deriving Repr, DecidableEq, Inhabited

def Token.text : Token → String
  | word s | int s | float s | op s => s
  | quoted s => "\"" ++ s ++ "\""
  | directive name "" => "#" ++ name
  | directive name rest => "#" ++ name ++ " " ++ rest
  | delim d => d.text

/-- A token and the line it starts on, counted from 1. -/
structure Lexeme where
  token : Token
  line : Nat
  deriving Repr, DecidableEq

/-- A file, as it is named in messages, and a line of it. -/
structure Loc where
  file : String
  line : Nat
  deriving Repr, DecidableEq, Inhabited

def Loc.text (l : Loc) : String := s!"{l.file}:{l.line}"

instance : ToString Loc := ⟨Loc.text⟩

/-- A token and its place after all includes are spliced in. -/
structure Placed where
  token : Token
  loc : Loc
  deriving Repr, DecidableEq, Inhabited

end ShaderDialect
