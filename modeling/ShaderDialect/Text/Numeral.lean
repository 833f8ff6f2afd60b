import ShaderDialect.Text.Hex

/-! Natural numbers written in base ten or sixteen. -/
namespace ShaderDialect.Text

/-- The number that continues `acc` with the given digits of a base up to sixteen. -/
def foldDigits? (base : Nat) (acc : Nat) : List Char → Option Nat
  | [] => some acc
  | c :: cs =>
    match hexValue? c with
    | some d => if d < base then foldDigits? base (base * acc + d) cs else none
    | none => none

/-- A number of at least one digit. -/
def numeral? (base : Nat) : List Char → Option Nat
  | [] => none
  | cs => foldDigits? base 0 cs

/-- A number of at least one digit that is below a bound. -/
def boundedNumeral? (base bound : Nat) (cs : List Char) : Option Nat :=
  (numeral? base cs).filter (· < bound)

/-- Drops a leading `+`, which a decimal number may carry. -/
def dropPlus : List Char → List Char
  | '+' :: cs => cs
  | cs => cs

end ShaderDialect.Text
