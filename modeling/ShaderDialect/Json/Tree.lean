import ShaderDialect.Text.Hex
import ShaderDialect.Text.Utf8

/-! JSON as it is read. Strings are kept as they are written and decoded only where they are asked
for, so that a part that nobody asks for need not be decodable. -/
namespace ShaderDialect

inductive JsonTree
  | null
  | bool (b : Bool)
  | number (text : List UInt8)
  /-- The bytes between the quotes. -/
  | str (raw : List UInt8)
  | arr (elements : List JsonTree)
  | obj (members : List (List UInt8 × JsonTree))
  deriving Inhabited

namespace JsonTree

def isBlank (b : UInt8) : Bool :=
  b == ' '.toUInt8 || b == '\n'.toUInt8 || b == '\r'.toUInt8 || b == '\t'.toUInt8

def skipBlank (bytes : List UInt8) : List UInt8 := bytes.dropWhile isBlank

def hexValue? (b : UInt8) : Option Nat := Text.hexValue? (Char.ofNat b.toNat)

def isHex (b : UInt8) : Bool := (hexValue? b).isSome

/-- The byte that a single letter after a backslash stands for. -/
def escaped? (b : UInt8) : Option UInt8 :=
  if b = '"'.toUInt8 ∨ b = '\\'.toUInt8 ∨ b = '/'.toUInt8 then some b
  else if b = 'b'.toUInt8 then some 0x08
  else if b = 'f'.toUInt8 then some 0x0c
  else if b = 'n'.toUInt8 then some 0x0a
  else if b = 'r'.toUInt8 then some 0x0d
  else if b = 't'.toUInt8 then some 0x09
  else none

/-- The rest of a string up to its closing quote, and what follows. -/
def stringRest? : List UInt8 → Option (List UInt8 × List UInt8)
  | [] => none
  | b :: bs =>
    if b = '"'.toUInt8 then some ([], bs)
    else if b < 0x20 then none
    else if b = '\\'.toUInt8 then
      match bs with
      | [] => none
      | e :: rest =>
        if (escaped? e).isSome then (stringRest? rest).map fun (s, r) => (b :: e :: s, r)
        else if e = 'u'.toUInt8 then
          match rest with
          | w :: x :: y :: z :: rest =>
            if isHex w && isHex x && isHex y && isHex z then
              (stringRest? rest).map fun (s, r) => (b :: e :: w :: x :: y :: z :: s, r)
            else none
          | _ => none
        else none
    else (stringRest? bs).map fun (s, r) => (b :: s, r)

def isDigit (b : UInt8) : Bool := '0'.toUInt8 ≤ b && b ≤ '9'.toUInt8

/-- One digit or more, and what follows. -/
def digits? (bytes : List UInt8) : Option (List UInt8 × List UInt8) :=
  match bytes.takeWhile isDigit with
  | [] => none
  | ds => some (ds, bytes.dropWhile isDigit)

/-- Digits that do not start with a needless zero. -/
def integer? (bytes : List UInt8) : Option (List UInt8 × List UInt8) := do
  let (ds, rest) ← digits? bytes
  if ds.head? = some '0'.toUInt8 ∧ 1 < ds.length then none else some (ds, rest)

/-- A point and digits, if there is a point. -/
def fraction? : List UInt8 → Option (List UInt8 × List UInt8)
  | [] => some ([], [])
  | b :: bs =>
    if b = '.'.toUInt8 then (digits? bs).map fun (ds, rest) => (b :: ds, rest)
    else some ([], b :: bs)

/-- A power of ten, if there is one. -/
def exponent? : List UInt8 → Option (List UInt8 × List UInt8)
  | [] => some ([], [])
  | b :: bs =>
    if b = 'e'.toUInt8 ∨ b = 'E'.toUInt8 then
      match bs with
      | s :: rest =>
        if s = '+'.toUInt8 ∨ s = '-'.toUInt8 then
          (digits? rest).map fun (ds, rest) => (b :: s :: ds, rest)
        else (digits? bs).map fun (ds, rest) => (b :: ds, rest)
      | [] => none
    else some ([], b :: bs)

def number? (bytes : List UInt8) : Option (List UInt8 × List UInt8) := do
  let (sign, bytes) :=
    match bytes with
    | b :: bs => if b = '-'.toUInt8 then ([b], bs) else ([], b :: bs)
    | [] => ([], [])
  let (whole, bytes) ← integer? bytes
  let (fraction, bytes) ← fraction? bytes
  let (exponent, bytes) ← exponent? bytes
  return (sign ++ whole ++ fraction ++ exponent, bytes)

/-- A fixed word and what follows it. -/
def word? (word : String) (value : JsonTree) (bytes : List UInt8) :
    Option (JsonTree × List UInt8) :=
  let expected := Text.utf8 word
  if expected.isPrefixOf bytes then some (value, bytes.drop expected.length) else none

def quoted? (bytes : List UInt8) : Option (List UInt8 × List UInt8) :=
  match bytes with
  | b :: bs => if b = '"'.toUInt8 then stringRest? bs else none
  | [] => none

/-- What follows a given byte, blanks before it apart. -/
def expect? (b : UInt8) (bytes : List UInt8) : Option (List UInt8) :=
  match skipBlank bytes with
  | x :: rest => if x = b then some rest else none
  | [] => none

mutual
def value? : (fuel : Nat) → List UInt8 → Option (JsonTree × List UInt8)
  | 0, _ => none
  | fuel + 1, bytes =>
    match skipBlank bytes with
    | [] => none
    | b :: bs =>
      if b = '"'.toUInt8 then (stringRest? bs).map fun (raw, rest) => (.str raw, rest)
      else if b = '['.toUInt8 then
        match expect? ']'.toUInt8 bs with
        | some rest => some (.arr [], rest)
        | none => (elements? fuel bs).map fun (vs, rest) => (.arr vs, rest)
      else if b = '\x7b'.toUInt8 then
        match expect? '\x7d'.toUInt8 bs with
        | some rest => some (.obj [], rest)
        | none => (members? fuel bs).map fun (ms, rest) => (.obj ms, rest)
      else if b = 'n'.toUInt8 then word? "null" .null (b :: bs)
      else if b = 't'.toUInt8 then word? "true" (.bool true) (b :: bs)
      else if b = 'f'.toUInt8 then word? "false" (.bool false) (b :: bs)
      else (number? (b :: bs)).map fun (text, rest) => (.number text, rest)

def elements? : (fuel : Nat) → List UInt8 → Option (List JsonTree × List UInt8)
  | 0, _ => none
  | fuel + 1, bytes => do
    let (v, rest) ← value? fuel bytes
    match expect? ','.toUInt8 rest with
    | some rest =>
      let (vs, rest) ← elements? fuel rest
      return (v :: vs, rest)
    | none =>
      let rest ← expect? ']'.toUInt8 rest
      return ([v], rest)

def members? : (fuel : Nat) → List UInt8 → Option (List (List UInt8 × JsonTree) × List UInt8)
  | 0, _ => none
  | fuel + 1, bytes => do
    let (key, rest) ← quoted? (skipBlank bytes)
    let rest ← expect? ':'.toUInt8 rest
    let (v, rest) ← value? fuel rest
    match expect? ','.toUInt8 rest with
    | some rest =>
      let (ms, rest) ← members? fuel rest
      return ((key, v) :: ms, rest)
    | none =>
      let rest ← expect? '\x7d'.toUInt8 rest
      return ([(key, v)], rest)
end

/-- The value that some bytes hold, with nothing but blanks around it. -/
def read? (bytes : List UInt8) : Option JsonTree := do
  let (v, rest) ← value? (2 * bytes.length + 2) bytes
  if (skipBlank rest).isEmpty then some v else none

def unit? (w x y z : UInt8) : Option Nat := do
  return 4096 * (← hexValue? w) + 256 * (← hexValue? x) + 16 * (← hexValue? y) + (← hexValue? z)

def isHighSurrogate (n : Nat) : Bool := 0xD800 ≤ n && n ≤ 0xDBFF

def isLowSurrogate (n : Nat) : Bool := 0xDC00 ≤ n && n ≤ 0xDFFF

/-- The bytes that a string stands for; halves of a surrogate pair have to stand together. -/
def unescape? : List UInt8 → Option (List UInt8)
  | [] => some []
  | b :: bs =>
    if b ≠ '\\'.toUInt8 then (unescape? bs).map (b :: ·)
    else
      match bs with
      | [] => none
      | e :: rest =>
        if e ≠ 'u'.toUInt8 then do
          let c ← escaped? e
          return c :: (← unescape? rest)
        else
          match rest with
          | w :: x :: y :: z :: rest => do
            let n ← unit? w x y z
            if isLowSurrogate n then none
            else if isHighSurrogate n then
              match rest with
              | s :: u :: w :: x :: y :: z :: rest => do
                let low ← unit? w x y z
                if s = '\\'.toUInt8 ∧ u = 'u'.toUInt8 ∧ isLowSurrogate low then
                  let c := Char.ofNat (0x10000 + (n - 0xD800) * 0x400 + (low - 0xDC00))
                  return Text.utf8 (String.singleton c) ++ (← unescape? rest)
                else none
              | _ => none
            else return Text.utf8 (String.singleton (Char.ofNat n)) ++ (← unescape? rest)
          | _ => none

def decode? (raw : List UInt8) : Option String := (unescape? raw).bind Text.ofUtf8?

def text? : JsonTree → Option String
  | str raw => decode? raw
  | _ => none

def list? : JsonTree → Option (List JsonTree)
  | arr vs => some vs
  | _ => none

def texts? (t : JsonTree) : Option (List String) := t.list?.bind fun vs => vs.mapM text?

/-- A member that may occur once. -/
def member? (members : List (String × JsonTree)) (key : String) : Option (Option JsonTree) :=
  match members.filter (·.1 == key) with
  | [] => some none
  | [(_, v)] => some (some v)
  | _ => none

/-- The values of a record with these keys, where they are given. An object may leave some out and
have others besides; an array gives exactly these values, in order. -/
def record? (keys : List String) : JsonTree → Option (List (Option JsonTree))
  | obj members => do
    let members ← members.mapM fun (raw, v) => return (← decode? raw, v)
    keys.mapM (member? members)
  | arr vs => if vs.length = keys.length then some (vs.map some) else none
  | _ => none

end JsonTree
end ShaderDialect
