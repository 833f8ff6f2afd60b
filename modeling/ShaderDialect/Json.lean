import ShaderDialect.Text.Hex

/-! JSON values and their two written forms: compact, and pretty with two spaces of indent. -/
namespace ShaderDialect

inductive Json
  | null
  | bool (b : Bool)
  | nat (n : Nat)
  | str (s : String)
  | arr (elements : List Json)
  | obj (fields : List (String × Json))

namespace Json

/-- Control characters, quotes and backslashes are escaped, all else is written as it is. -/
def escape (c : Char) : List Char :=
  if c = '"' then ['\\', '"']
  else if c = '\\' then ['\\', '\\']
  else if c = '\n' then ['\\', 'n']
  else if c = '\r' then ['\\', 'r']
  else if c = '\t' then ['\\', 't']
  else if c = '\x08' then ['\\', 'b']
  else if c = '\x0c' then ['\\', 'f']
  else if c.toNat < 0x20 then '\\' :: 'u' :: Text.hexDigits 4 c.toNat
  else [c]

/-- A text with one more character, as it stands between quotes. -/
def pushEscaped (text : String) (c : Char) : String := (escape c).foldl String.push text

def quote (s : String) : String := (s.toList.foldl pushEscaped "\"").push '"'

theorem foldl_push (text : String) (cs : List Char) :
    cs.foldl String.push text = text ++ String.ofList cs := by
  induction cs generalizing text with
  | nil => simp
  | cons c cs ih => simp [ih, String.ext_iff]

theorem quote_eq (s : String) :
    quote s = "\"" ++ String.ofList (s.toList.flatMap escape) ++ "\"" := by
  have hfold :
      s.toList.foldl pushEscaped "\"" = "\"" ++ String.ofList (s.toList.flatMap escape) := by
    rw [← foldl_push, List.foldl_flatMap]
    rfl
  rw [quote, hfold]
  rfl

def ofOption {α : Type} (f : α → Json) : Option α → Json
  | none => null
  | some a => f a

mutual
/-- Without any blanks. -/
def compact : Json → String
  | null => "null"
  | bool b => if b then "true" else "false"
  | nat n => toString n
  | str s => quote s
  | arr elements => "[" ++ ",".intercalate (compactElements elements) ++ "]"
  | obj fields => "\x7b" ++ ",".intercalate (compactFields fields) ++ "\x7d"

def compactElements : List Json → List String
  | [] => []
  | v :: vs => v.compact :: compactElements vs

def compactFields : List (String × Json) → List String
  | [] => []
  | (key, v) :: rest => (quote key ++ ":" ++ v.compact) :: compactFields rest
end

def newline (indent : Nat) : String := "\n" ++ String.ofList (List.replicate (2 * indent) ' ')

/-- Lines of a bracketed list, one element a line. -/
def bracket (indent : Nat) (left right : String) (elements : List String) : String :=
  if elements.isEmpty then left ++ right
  else left ++ newline (indent + 1) ++ ("," ++ newline (indent + 1)).intercalate elements ++
    newline indent ++ right

mutual
/-- The pretty form of a value that stands at a given depth. -/
def prettyAt (indent : Nat) : Json → String
  | null => "null"
  | bool b => if b then "true" else "false"
  | nat n => toString n
  | str s => quote s
  | arr elements => bracket indent "[" "]" (prettyElements (indent + 1) elements)
  | obj fields => bracket indent "\x7b" "\x7d" (prettyFields (indent + 1) fields)

def prettyElements (indent : Nat) : List Json → List String
  | [] => []
  | v :: vs => prettyAt indent v :: prettyElements indent vs

def prettyFields (indent : Nat) : List (String × Json) → List String
  | [] => []
  | (key, v) :: rest => (quote key ++ ": " ++ prettyAt indent v) :: prettyFields indent rest
end

/-- Each element and field on a line of its own. -/
def pretty (v : Json) : String := prettyAt 0 v

end Json
end ShaderDialect
