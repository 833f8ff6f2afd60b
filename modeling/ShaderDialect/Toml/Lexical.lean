import ShaderDialect.Text.Numeral

/-! Keys, strings and whole numbers of TOML documents. Each reader splits what it reads off the
front of the text. -/
namespace ShaderDialect.Toml

abbrev Rest := List Char

def isSpace (c : Char) : Bool := c = ' ' || c = '\t'

def skipSpace (cs : Rest) : Rest := cs.dropWhile isSpace

def newline? : Rest → Option Rest
  | '\n' :: cs => some cs
  | '\r' :: '\n' :: cs => some cs
  | _ => none

/-- Characters that may stand in comments and strings: no control characters but the tab. -/
def isPrintable (c : Char) : Bool := c = '\t' || (0x20 ≤ c.toNat && c.toNat ≠ 0x7f)

/-- The text after a comment, if there is one; its line break is left. -/
def skipComment : Rest → Rest
  | '#' :: cs => cs.dropWhile isPrintable
  | cs => cs

def word? (word : String) (cs : Rest) : Option Rest :=
  if word.toList.isPrefixOf cs then some (cs.drop word.length) else none

/-- The text after the rest of a line without contents. -/
def endOfLine? (cs : Rest) : Option Rest :=
  match skipComment (skipSpace cs) with
  | [] => some []
  | cs => newline? cs

/-- The character with a number of so many hexadecimal digits. -/
def scalar? (width : Nat) (cs : Rest) : Option (Char × Rest) := do
  let digits := cs.take width
  if digits.length ≠ width then none
  else
    let n ← Text.numeral? 16 digits
    if n < 0xD800 ∨ (0xDFFF < n ∧ n < 0x110000) then some (Char.ofNat n, cs.drop width) else none

def escape? : Rest → Option (Char × Rest)
  | 'b' :: cs => some ('\x08', cs)
  | 't' :: cs => some ('\t', cs)
  | 'n' :: cs => some ('\n', cs)
  | 'f' :: cs => some ('\x0c', cs)
  | 'r' :: cs => some ('\r', cs)
  | '"' :: cs => some ('"', cs)
  | '\\' :: cs => some ('\\', cs)
  | 'u' :: cs => scalar? 4 cs
  | 'U' :: cs => scalar? 8 cs
  | _ => none

/-- A string on one line, after its opening quote. -/
def basicRest? : (fuel : Nat) → Rest → Option (List Char × Rest)
  | 0, _ => none
  | _, [] => none
  | fuel + 1, c :: cs =>
    if c = '"' then some ([], cs)
    else if c = '\\' then do
      let (e, cs) ← escape? cs
      let (s, cs) ← basicRest? fuel cs
      return (e :: s, cs)
    else if isPrintable c then do
      let (s, cs) ← basicRest? fuel cs
      return (c :: s, cs)
    else none

/-- A string on one line without escapes, after its opening quote. -/
def literalRest? (cs : Rest) : Option (List Char × Rest) :=
  let isInner (c : Char) : Bool := isPrintable c && c ≠ '\''
  match cs.dropWhile isInner with
  | '\'' :: rest => some (cs.takeWhile isInner, rest)
  | _ => none

/-- The blanks and line breaks after a backslash at the end of a line. -/
def skipBlankLines : (fuel : Nat) → Rest → Rest
  | 0, cs => cs
  | fuel + 1, cs =>
    match newline? (skipSpace cs) with
    | some rest => skipBlankLines fuel rest
    | none => skipSpace cs

/-- A string over several lines, after its opening quotes. Up to two quotes in a row are part of it,
also right before the three that close it. -/
def multilineRest? (quote : Char) (escapes : Bool) : (fuel : Nat) → Rest →
    Option (List Char × Rest)
  | 0, _ => none
  | fuel + 1, cs =>
    let more (part : List Char) (cs : Rest) : Option (List Char × Rest) := do
      let (s, cs) ← multilineRest? quote escapes fuel cs
      return (part ++ s, cs)
    match newline? cs, cs with
    | some rest, _ => more ['\n'] rest
    | none, [] => none
    | none, c :: rest =>
      if c = quote then
        let run := cs.takeWhile (· = quote)
        let after := cs.drop run.length
        if run.length < 3 then more run after
        else if run.length ≤ 5 then some (run.drop 3, after)
        else none
      else if escapes && c = '\\' then
        match newline? (skipSpace rest) with
        | some _ => more [] (skipBlankLines rest.length rest)
        | none => do
          let (e, rest) ← escape? rest
          more [e] rest
      else if isPrintable c then more [c] rest
      else none

/-- A string over several lines; a line break right after the quotes is not part of it. -/
def multiline? (quote : Char) (escapes : Bool) (cs : Rest) : Option (List Char × Rest) :=
  let cs := (newline? cs).getD cs
  multilineRest? quote escapes (cs.length + 1) cs

def string? : Rest → Option (String × Rest)
  | '"' :: '"' :: '"' :: cs => (multiline? '"' true cs).map fun (s, cs) => (String.ofList s, cs)
  | '\'' :: '\'' :: '\'' :: cs => (multiline? '\'' false cs).map fun (s, cs) =>
    (String.ofList s, cs)
  | '"' :: cs => (basicRest? (cs.length + 1) cs).map fun (s, cs) => (String.ofList s, cs)
  | '\'' :: cs => (literalRest? cs).map fun (s, cs) => (String.ofList s, cs)
  | _ => none

def isBare (c : Char) : Bool := c.isAlphanum || c = '_' || c = '-'

def simpleKey? : Rest → Option (String × Rest)
  | '"' :: cs => (basicRest? (cs.length + 1) cs).map fun (s, cs) => (String.ofList s, cs)
  | '\'' :: cs => (literalRest? cs).map fun (s, cs) => (String.ofList s, cs)
  | cs =>
    match cs.takeWhile isBare with
    | [] => none
    | s => some (String.ofList s, cs.dropWhile isBare)

/-- The parts of a key, which are divided by dots with blanks around them. -/
def keyParts? : (fuel : Nat) → Rest → Option (List String × Rest)
  | 0, _ => none
  | fuel + 1, cs => do
    let (part, rest) ← simpleKey? (skipSpace cs)
    match skipSpace rest with
    | '.' :: rest =>
      let (parts, rest) ← keyParts? fuel rest
      return (part :: parts, rest)
    | rest => return ([part], rest)

/-- Values are nested less deep than this, and keys have fewer parts. -/
def nestingLimit : Nat := 80

/-- A key: the parts that lead to a table, and the last one. -/
def key? (cs : Rest) : Option (List String × String × Rest) := do
  let (parts, rest) ← keyParts? (cs.length + 1) cs
  if nestingLimit ≤ parts.length then none
  return (parts.dropLast, ← parts.getLast?, rest)

/-- Digits of a base in which underscores may stand between two digits. -/
def underscored (isDigit : Char → Bool) : Rest → List Char × Rest
  | '_' :: c :: cs =>
    if isDigit c then
      let (ds, rest) := underscored isDigit cs
      (c :: ds, rest)
    else ([], '_' :: c :: cs)
  | c :: cs =>
    if isDigit c then
      let (ds, rest) := underscored isDigit cs
      (c :: ds, rest)
    else ([], c :: cs)
  | [] => ([], [])

def digits? (isDigit : Char → Bool) : Rest → Option (List Char × Rest)
  | c :: cs =>
    if isDigit c then
      let (ds, rest) := underscored isDigit cs
      some (c :: ds, rest)
    else none
  | [] => none

def isBaseDigit (base : Nat) (c : Char) : Bool :=
  match Text.hexValue? c with
  | some d => d < base
  | none => false

def inRange? (n : Int) : Option Int :=
  if -0x8000000000000000 ≤ n ∧ n < 0x8000000000000000 then some n else none

/-- A number without a sign, in a base that its second character names. -/
def based? (base : Nat) (cs : Rest) : Option (Int × Rest) := do
  let (ds, rest) ← digits? (isBaseDigit base) cs
  return (← inRange? (← Text.numeral? base ds), rest)

/-- A decimal number; only zero itself starts with a zero. -/
def decimal? (negative : Bool) : Rest → Option (Int × Rest)
  | '0' :: cs => some (0, cs)
  | cs => do
    let (ds, rest) ← digits? (isBaseDigit 10) cs
    let n : Int := ← Text.numeral? 10 ds
    return (← inRange? (if negative then -n else n), rest)

def int? : Rest → Option (Int × Rest)
  | '0' :: 'x' :: cs => based? 16 cs
  | '0' :: 'o' :: cs => based? 8 cs
  | '0' :: 'b' :: cs => based? 2 cs
  | '+' :: cs => decimal? false cs
  | '-' :: cs => decimal? true cs
  | cs => decimal? false cs

end ShaderDialect.Toml
