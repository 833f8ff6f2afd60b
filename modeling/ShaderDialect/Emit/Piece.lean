import ShaderDialect.Token

/-! Pieces of generated text, on one line or laid out into lines. -/
namespace ShaderDialect

inductive Piece
  | word (text : String)
  | op (symbol : String)
  | delim (d : Delimiter)
  /-- A complete line. -/
  | line (text : String)
  deriving Repr, DecidableEq, Inhabited

namespace Piece

def text : Piece → String
  | word s | op s | line s => s
  | delim d => d.text

/-- Parentheses and square brackets. -/
def isOpening : Piece → Bool
  | delim .lparen | delim .lbracket => true
  | _ => false

def isClosing : Piece → Bool
  | delim .rparen | delim .rbracket => true
  | _ => false

/-- Whether a piece may directly stand before a bracket. -/
def isHead : Piece → Bool
  | word _ => true
  | p => p.isClosing

/-- Pieces that follow on what is before them. -/
def clings : Piece → Bool
  | delim .comma | delim .semicolon | delim .dot => true
  | p => p.isClosing

/-- Whether two neighbours on a line are divided by a space. -/
def spaced (a b : Piece) : Bool :=
  !(a.isOpening || a == delim .dot || b.clings || (a.isHead && b.isOpening))

/-- The text after a piece, with the spaces that it needs. -/
def textAfter : Piece → List Piece → String
  | _, [] => ""
  | a, b :: rest => (if a.spaced b then " " else "") ++ b.text ++ textAfter b rest

def inline : List Piece → String
  | [] => ""
  | a :: rest => a.text ++ textAfter a rest

end Piece

/-- Lines under construction: a statement a line, and braces on lines of their own. -/
structure Layout where
  /-- Finished lines, the last one first. -/
  done : List String
  indent : Nat
  /-- The pieces of the line under way. -/
  line : List Piece
  /-- How many brackets are open. -/
  depth : Nat
  deriving Repr

namespace Layout

def start (indent : Nat) : Layout := ⟨[], indent, [], 0⟩

def indentation (n : Nat) : String := String.join (List.replicate n "    ")

def addLine (l : Layout) (text : String) : Layout :=
  { l with done := (indentation l.indent ++ text) :: l.done }

def flush (l : Layout) : Layout :=
  if l.line.isEmpty then l else { l.addLine (Piece.inline l.line) with line := [] }

def keep (l : Layout) (p : Piece) : Layout := { l with line := l.line ++ [p] }

/-- The finished lines with a semicolon after the brace that the last one ends with. -/
def afterBrace? (l : Layout) : Option (List String) :=
  match l.line, l.done with
  | [], last :: before =>
    if last.toList.getLast? = some '\x7d' then some ((last ++ ";") :: before) else none
  | _, _ => none

def push (l : Layout) (p : Piece) : Layout :=
  match p with
  | .delim .lparen | .delim .lbracket => { l.keep p with depth := l.depth + 1 }
  | .delim .rparen | .delim .rbracket => { l.keep p with depth := l.depth - 1 }
  | .delim .semicolon =>
    if l.depth ≠ 0 then l.keep p
    else
      match l.afterBrace? with
      | some done => { l with done }
      | none => (l.keep p).flush
  | .delim .lbrace =>
    let l := l.flush.addLine "\x7b"
    { l with indent := l.indent + 1 }
  | .delim .rbrace =>
    let l := l.flush
    { l with indent := l.indent - 1 }.addLine "\x7d"
  | .line text => l.flush.addLine text
  | p => l.keep p

/-- The lines of a list of pieces, with their indentation. -/
def lines (indent : Nat) (pieces : List Piece) : List String :=
  (pieces.foldl push (start indent)).flush.done.reverse

end Layout
end ShaderDialect
