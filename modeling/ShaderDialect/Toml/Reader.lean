import ShaderDialect.Toml
import ShaderDialect.Toml.DateTime
import ShaderDialect.Toml.Float

/-! Reading TOML documents. -/
namespace ShaderDialect.Toml

def skipLines : (fuel : Nat) → Rest → Rest
  | 0, cs => cs
  | fuel + 1, cs =>
    match newline? (skipComment (skipSpace cs)) with
    | some rest => skipLines fuel rest
    | none => skipComment (skipSpace cs)

def skipAll (cs : Rest) : Rest := skipLines cs.length cs

def number? (cs : Rest) : Option (Toml × Rest) :=
  ((DateTime.read? cs).map fun (d, cs) => (.dateTime d.text, cs)) <|>
    ((float? cs).map fun (text, cs) => (.float text, cs)) <|>
    ((int? cs).map fun (n, cs) => (.int n, cs))

mutual
/-- A value inside of so many others. -/
def value? : (fuel depth : Nat) → Rest → Option (Toml × Rest)
  | 0, _, _ => none
  | fuel + 1, depth, cs =>
    match cs with
    | '"' :: _ | '\'' :: _ => (string? cs).map fun (s, cs) => (.str s, cs)
    | '[' :: cs =>
      if nestingLimit ≤ depth + 1 then none
      else match skipAll cs with
      | ']' :: rest => some (.arr [], rest)
      | rest => (elements? fuel (depth + 1) rest).map fun (vs, cs) => (.arr vs, cs)
    | '\x7b' :: cs =>
      if nestingLimit ≤ depth + 1 then none
      else match skipSpace cs with
      | '\x7d' :: rest => some (.table [], rest)
      | rest => (pairs? fuel (depth + 1) rest []).map fun (es, cs) => (Entries.toToml es, cs)
    | 't' :: _ => (word? "true" cs).map (.bool true, ·)
    | 'f' :: _ => (word? "false" cs).map (.bool false, ·)
    | _ => number? cs

/-- Elements up to the closing bracket; a comma may follow the last one. -/
def elements? : (fuel depth : Nat) → Rest → Option (List Toml × Rest)
  | 0, _, _ => none
  | fuel + 1, depth, cs => do
    let (v, rest) ← value? fuel depth cs
    match skipAll rest with
    | ']' :: rest => return ([v], rest)
    | ',' :: rest =>
      match skipAll rest with
      | ']' :: rest => return ([v], rest)
      | rest =>
        let (vs, rest) ← elements? fuel depth rest
        return (v :: vs, rest)
    | _ => none

/-- The pairs of a table in braces, on one line and without a comma after the last one. -/
def pairs? : (fuel depth : Nat) → Rest → Entries → Option (Entries × Rest)
  | 0, _, _, _ => none
  | fuel + 1, depth, cs, es => do
    let (path, key, rest) ← key? cs
    let '=' :: rest := skipSpace rest | none
    let (v, rest) ← value? fuel depth (skipSpace rest)
    let es ← Entries.set path key v false es
    match skipSpace rest with
    | '\x7d' :: rest => return (es, rest)
    | ',' :: rest => pairs? fuel depth (skipSpace rest) es
    | _ => none
end

structure Draft where
  entries : Entries
  /-- The path of the open table. -/
  opened : List String

/-- The header of a table, after its opening brackets. -/
def header? (cs : Rest) (close : List Char) : Option (List String × String × Rest) := do
  let (path, key, rest) ← key? cs
  let rest := skipSpace rest
  if close.isPrefixOf rest then
    let rest ← endOfLine? (rest.drop close.length)
    return (path, key, rest)
  else none

/-- One line of a document that is neither empty nor a comment. -/
def line? (d : Draft) (cs : Rest) : Option (Draft × Rest) :=
  match cs with
  | '[' :: '[' :: cs => do
    let (path, key, rest) ← header? cs [']', ']']
    return (⟨← Entries.openSeries path key d.entries, path ++ [key]⟩, rest)
  | '[' :: cs => do
    let (path, key, rest) ← header? cs [']']
    return (⟨← Entries.openTable path key d.entries, path ++ [key]⟩, rest)
  | cs => do
    let (path, key, rest) ← key? cs
    let '=' :: rest := skipSpace rest | none
    let (v, rest) ← value? (2 * rest.length + 2) 0 (skipSpace rest)
    let rest ← endOfLine? rest
    return ({ d with entries := ← Entries.setIn d.opened path key v d.entries }, rest)

def lines? : (fuel : Nat) → Draft → Rest → Option Draft
  | 0, d, cs => if cs.isEmpty then some d else none
  | fuel + 1, d, cs =>
    match skipAll cs with
    | [] => some d
    | rest => do
      let (d, rest) ← line? d rest
      lines? fuel d rest

def read? (text : String) : Option Toml := do
  let cs :=
    match text.toList with
    | '\uFEFF' :: cs => cs
    | cs => cs
  let d ← lines? (cs.length + 1) ⟨[], []⟩ cs
  return Entries.toToml d.entries

end ShaderDialect.Toml
