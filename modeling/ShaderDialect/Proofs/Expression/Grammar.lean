import ShaderDialect.Token

/-! Expressions with the operators of C. A tree is grouped when every operand binds tightly enough
for its place, so that the tree is the one that its tokens stand for. -/
namespace ShaderDialect

/-- How tightly an operator between two operands binds, and how tightly its operands have to. -/
structure Rank where
  level : Nat
  left : Nat
  right : Nat
  deriving Repr, DecidableEq

namespace Rank

/-- Operators that group to the left, by level. Unary operators are on level 13, and what follows an
operand in brackets or after a dot is on level 14. -/
def leftward : List (String × Nat) :=
  [("||", 3), ("&&", 4), ("|", 5), ("^", 6), ("&", 7), ("==", 8), ("!=", 8), ("<", 9), (">", 9),
    ("<=", 9), (">=", 9), ("<<", 10), (">>", 10), ("+", 11), ("-", 11), ("*", 12), ("/", 12),
    ("%", 12)]

def assignments : List String :=
  ["=", "+=", "-=", "*=", "/=", "%=", "<<=", ">>=", "&=", "^=", "|="]

def ofToken? : Token → Option Rank
  | .delim .comma => some ⟨0, 0, 1⟩
  | .op symbol =>
    if symbol ∈ assignments then some ⟨1, 13, 1⟩
    else (leftward.lookup symbol).map fun n => ⟨n, n, n + 1⟩
  | _ => none

/-- The rank of `? :`, whose middle operand may be any expression. -/
def choice : Rank := ⟨2, 3, 2⟩

end Rank

/-- An expression as its tokens group, parentheses included. -/
inductive Expression
  /-- A name or a literal. -/
  | atom (t : Token)
  | group (e : Expression)
  | index (e i : Expression)
  | call (f : Expression) (args : List Expression)
  | member (e : Expression) (mark : Token) (name : String)
  /-- `++` or `--` after the operand. -/
  | stepped (e : Expression) (symbol : String)
  | unary (symbol : String) (e : Expression)
  | cast (type : String) (e : Expression)
  | choice (c a b : Expression)
  | join (mark : Token) (l r : Expression)

namespace Expression
variable {mark : Token} {rank : Rank} (e : Expression)

def level : Expression → Nat
  | join mark _ _ => ((Rank.ofToken? mark).map Rank.level).getD 0
  | choice _ _ _ => Rank.choice.level
  | unary _ _ | cast _ _ => 13
  | _ => 14

mutual
def tokens : Expression → List Token
  | atom t => [t]
  | group e => .delim .lparen :: e.tokens ++ [.delim .rparen]
  | index e i => e.tokens ++ .delim .lbracket :: i.tokens ++ [.delim .rbracket]
  | call f args => f.tokens ++ .delim .lparen :: argTokens args ++ [.delim .rparen]
  | member e mark name => e.tokens ++ [mark, .word name]
  | stepped e symbol => e.tokens ++ [.op symbol]
  | unary symbol e => .op symbol :: e.tokens
  | cast type e => .delim .lparen :: .word type :: .delim .rparen :: e.tokens
  | choice c a b => c.tokens ++ .op "?" :: a.tokens ++ .delim .colon :: b.tokens
  | join mark l r => l.tokens ++ mark :: r.tokens

def argTokens : List Expression → List Token
  | [] => []
  | [e] => e.tokens
  | e :: e' :: es => e.tokens ++ .delim .comma :: argTokens (e' :: es)
end

def isAtom : Token → Bool
  | .word _ | .int _ | .float _ | .quoted _ => true
  | _ => false

def memberMarks : List Token := [.delim .dot, .op "->", .op "::"]

def unaryOperators : List String := ["+", "-", "!", "~", "*", "&", "++", "--"]

variable (isType : String → Bool)

/-- The name of a type, which in parentheses is a cast and not an expression. -/
def isTypeName : Expression → Bool
  | atom (.word name) => isType name
  | _ => false

mutual
def grouped : Expression → Bool
  | atom t => isAtom t
  | group e => e.grouped && !e.isTypeName isType
  | index e i => 14 ≤ e.level && e.grouped && i.grouped
  | call f args => 14 ≤ f.level && f.grouped && argsGrouped args
  | member e mark _ => memberMarks.contains mark && 14 ≤ e.level && e.grouped
  | stepped e symbol => ["++", "--"].contains symbol && 14 ≤ e.level && e.grouped
  | unary symbol e => unaryOperators.contains symbol && 13 ≤ e.level && e.grouped
  | cast type e => isType type && 13 ≤ e.level && e.grouped
  | choice c a b =>
    Rank.choice.left ≤ c.level && Rank.choice.right ≤ b.level && c.grouped && a.grouped && b.grouped
  | join mark l r =>
    match Rank.ofToken? mark with
    | some rank => rank.left ≤ l.level && rank.right ≤ r.level && l.grouped && r.grouped
    | none => false

/-- Arguments are on the level of an assignment at least, so none has a comma of its own. -/
def argsGrouped : List Expression → Bool
  | [] => true
  | e :: es => 1 ≤ e.level && e.grouped && argsGrouped es
end

@[simp] theorem level_atom (t : Token) : (atom t).level = 14 := rfl

@[simp] theorem level_group : (group e).level = 14 := rfl

@[simp] theorem level_index (i : Expression) : (index e i).level = 14 := rfl

@[simp] theorem level_call (f : Expression) (args : List Expression) :
    (call f args).level = 14 := rfl

variable {isType}

theorem level_join (h : Rank.ofToken? mark = some rank) (l r : Expression) :
    (join mark l r).level = rank.level := by
  simp [level, h]

theorem grouped_join (h : Rank.ofToken? mark = some rank) (l r : Expression) :
    (join mark l r).grouped isType ↔
      rank.left ≤ l.level ∧ rank.right ≤ r.level ∧ l.grouped isType ∧ r.grouped isType := by
  simp [grouped, h, and_assoc]

end Expression
end ShaderDialect
