/-! Bytes as text: three bytes become four characters, and padding fills the last group. -/
namespace ShaderDialect.Text

def base64Digit (n : Nat) : Char :=
  if n < 26 then Char.ofNat ('A'.toNat + n)
  else if n < 52 then Char.ofNat ('a'.toNat + (n - 26))
  else if n < 62 then Char.ofNat ('0'.toNat + (n - 52))
  else if n = 62 then '+'
  else '/'

def base64Value? (c : Char) : Option Nat :=
  if c.isUpper then some (c.toNat - 'A'.toNat)
  else if c.isLower then some (c.toNat - 'a'.toNat + 26)
  else if c.isDigit then some (c.toNat - '0'.toNat + 52)
  else if c = '+' then some 62
  else if c = '/' then some 63
  else none

/-- The given number of characters, six bits each, the first ones first. -/
def base64Group (digits : Nat) (n : Nat) : List Char :=
  ((List.range 4).take digits).map fun i => base64Digit (n >>> (6 * (3 - i)) % 64)

def base64Chars : List UInt8 → List Char
  | [] => []
  | [a] => base64Group 2 (a.toNat * 65536) ++ ['=', '=']
  | [a, b] => base64Group 3 (a.toNat * 65536 + b.toNat * 256) ++ ['=']
  | a :: b :: c :: rest =>
    base64Group 4 (a.toNat * 65536 + b.toNat * 256 + c.toNat) ++ base64Chars rest

def base64 (bytes : List UInt8) : String := String.ofList (base64Chars bytes)

/-- The bytes of a group; the bits that padding leaves over have to be zero. -/
def base64Last? (w x y z : Char) : Option (List UInt8) := do
  let m := 64 * (← base64Value? w) + (← base64Value? x)
  if y = '=' ∧ z = '=' then
    if m % 16 = 0 then some [UInt8.ofNat (m / 16)] else none
  else
    let n := 64 * m + (← base64Value? y)
    if z = '=' then
      if n % 4 = 0 then some [UInt8.ofNat (n / 1024), UInt8.ofNat (n / 4)] else none
    else
      let n := 64 * n + (← base64Value? z)
      some [UInt8.ofNat (n / 65536), UInt8.ofNat (n / 256), UInt8.ofNat n]

/-- The bytes of a text in whole groups, of which only the last may be padded. -/
def base64Decode? : List Char → Option (List UInt8)
  | [] => some []
  | w :: x :: y :: z :: rest => do
    if rest ≠ [] ∧ (y = '=' ∨ z = '=') then none
    else return (← base64Last? w x y z) ++ (← base64Decode? rest)
  | _ => none

end ShaderDialect.Text
