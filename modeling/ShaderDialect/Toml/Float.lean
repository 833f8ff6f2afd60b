import ShaderDialect.Toml.Lexical

/-! Numbers of TOML documents that have a fraction or an exponent. They are read for their extent;
of their value only matters whether a double can hold it. -/
namespace ShaderDialect.Toml

/-- The least number that rounds to infinity: halfway between the greatest double and the next power
of two. -/
def doubleBound : Nat := 1 <<< 1024 - 1 <<< 970

/-- Whether `n * 10 ^ exponent` is too large for a double. Numbers of fewer than 309 digits are not,
and numbers of more are, so that only the others are multiplied out. -/
def overflows (n : Nat) (exponent : Int) : Bool :=
  let size := (Nat.toDigits 10 n).length + exponent
  if n = 0 ∨ size < 309 then false
  else if 309 < size then true
  else doubleBound * Nat.pow 10 (-exponent).toNat ≤ n * Nat.pow 10 exponent.toNat

def sign : Rest → Bool × Rest
  | '-' :: cs => (true, cs)
  | '+' :: cs => (false, cs)
  | cs => (false, cs)

/-- The digits before a point; only zero itself starts with a zero. -/
def wholeDigits? : Rest → Option (List Char × Rest)
  | '0' :: cs => some (['0'], cs)
  | cs => digits? (isBaseDigit 10) cs

def fraction? : Rest → Option (List Char × Rest)
  | '.' :: cs => digits? (isBaseDigit 10) cs
  | cs => some ([], cs)

def exponent? : Rest → Option (Option Int × Rest)
  | 'e' :: cs | 'E' :: cs => do
    let (negative, cs) := sign cs
    let (ds, cs) ← digits? (isBaseDigit 10) cs
    let n : Int := ← Text.numeral? 10 ds
    return (some (if negative then -n else n), cs)
  | cs => some (none, cs)

/-- The text after a number with a fraction, an exponent or both. One that is too large is refused,
unless it is negative. -/
def skipDecimal? (negative : Bool) (cs : Rest) : Option Rest := do
  let (whole, cs) ← wholeDigits? cs
  let (fraction, cs) ← fraction? cs
  let (exponent, cs) ← exponent? cs
  if fraction.isEmpty && exponent.isNone then none
  let n ← Text.numeral? 10 (whole ++ fraction)
  if !negative && overflows n (exponent.getD 0 - fraction.length) then none else some cs

/-- A number that is not whole, also an infinite one or none at all. -/
def float? (cs : Rest) : Option (String × Rest) := do
  let (negative, body) := sign cs
  let rest ← word? "inf" body <|> word? "nan" body <|> skipDecimal? negative body
  return (String.ofList (cs.take (cs.length - rest.length)), rest)

end ShaderDialect.Toml
