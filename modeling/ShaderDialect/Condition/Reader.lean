import ShaderDialect.Condition
import ShaderDialect.Token.Scan

/-! Conditions as they are written in directives: `!` binds tighter than `&&`, which binds tighter
than `||`, and both of these group to the left. -/
namespace ShaderDialect

/-- Why the operand of a conditional directive is not a condition. -/
inductive ConditionFault
  | unreadable (fault : ScanFault)
  | oneSymbol (directive : String)
  | trailing (operand : String)
  | missingParen
  | definedNeedsSymbol
  | definedOpen (name : String)
  | unexpected (text : String)
  | incomplete
  deriving Repr, DecidableEq

def ConditionFault.message : ConditionFault → String
  | unreadable fault => s!"bad condition: {fault.message}"
  | oneSymbol directive => s!"'#{directive}' takes exactly one symbol"
  | trailing operand => s!"trailing tokens in condition '{operand}'"
  | missingParen => "missing ')' in condition"
  | definedNeedsSymbol => "defined() needs a symbol"
  | definedOpen name => s!"missing ')' after defined({name}"
  | unexpected text => s!"unexpected '{text}' in condition"
  | incomplete => "incomplete condition"

namespace Condition

abbrev Parse := Except ConditionFault (Condition × List Token)

/-- The symbol of `defined(S)` or `defined S`. -/
def definedSymbol : List Token → Parse
  | .delim .lparen :: .word name :: .delim .rparen :: ts => .ok (.symbol name, ts)
  | .delim .lparen :: .word name :: _ => .error (.definedOpen name)
  | .word name :: ts => .ok (.symbol name, ts)
  | _ => .error .definedNeedsSymbol

mutual
/-- Operands joined by `||`. The fuel bounds the depth of the recursion. -/
def disjunction : Nat → List Token → Parse
  | 0, _ => .error .incomplete
  | n + 1, ts => do
    let (c, ts) ← conjunction n ts
    disjunctionTail n c ts

def disjunctionTail : Nat → Condition → List Token → Parse
  | n + 1, c, .op "||" :: ts => do
    let (d, ts) ← conjunction n ts
    disjunctionTail n (.or c d) ts
  | _, c, ts => .ok (c, ts)

def conjunction : Nat → List Token → Parse
  | 0, _ => .error .incomplete
  | n + 1, ts => do
    let (c, ts) ← operand n ts
    conjunctionTail n c ts

def conjunctionTail : Nat → Condition → List Token → Parse
  | n + 1, c, .op "&&" :: ts => do
    let (d, ts) ← operand n ts
    conjunctionTail n (.and c d) ts
  | _, c, ts => .ok (c, ts)

/-- A negation, a group, a symbol or a literal; every literal but `0` is true. -/
def operand : Nat → List Token → Parse
  | 0, _ => .error .incomplete
  | _, [] => .error .incomplete
  | n + 1, .op "!" :: ts => do
    let (c, ts) ← operand n ts
    return (.not c, ts)
  | n + 1, .delim .lparen :: ts => do
    let (c, ts) ← disjunction n ts
    match ts with
    | .delim .rparen :: ts => return (c, ts)
    | _ => .error .missingParen
  | _, .word "defined" :: ts => definedSymbol ts
  | _, .word name :: ts => .ok (.symbol name, ts)
  | _, .int text :: ts => .ok (.literal (text != "0"), ts)
  | _, t :: _ => .error (.unexpected t.text)
end

/-- Enough fuel for any list of tokens: four steps lead from a group to the group inside it. -/
def fuel (ts : List Token) : Nat := 4 * (ts.length + 1)

/-- The condition of an `#if`, `#elif`, `#ifdef` or `#ifndef` with the given operand. -/
def read (directive operand : String) : Except ConditionFault Condition :=
  match tokenize operand with
  | .error e => .error (.unreadable e.fault)
  | .ok ls =>
    let ts := ls.map Lexeme.token
    if directive = "ifdef" ∨ directive = "ifndef" then
      match ts with
      | [.word name] => .ok (if directive = "ifndef" then .not (.symbol name) else .symbol name)
      | _ => .error (.oneSymbol directive)
    else
      match disjunction (fuel ts) ts with
      | .error e => .error e
      | .ok (c, []) => .ok c
      | .ok (_, _ :: _) => .error (.trailing operand)

end Condition
end ShaderDialect
