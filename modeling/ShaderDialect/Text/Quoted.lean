import ShaderDialect.Text.Hidden

/-! Text between quotes in diagnostics. -/
namespace ShaderDialect.Text

def escapeNumber (c : Char) : List Char :=
  ['\\', 'u', '\x7b'] ++ Nat.toDigits 16 c.toNat ++ ['\x7d']

/-- Quotes and backslashes are escaped, and so are the characters that would not show, those by
their number if they have no letter of their own. -/
def escapeDiagnostic (c : Char) : List Char :=
  if c = '"' then ['\\', '"']
  else if c = '\\' then ['\\', '\\']
  else if c = '\n' then ['\\', 'n']
  else if c = '\r' then ['\\', 'r']
  else if c = '\t' then ['\\', 't']
  else if c.toNat = 0 then ['\\', '0']
  else if isHidden c then escapeNumber c
  else [c]

def quoteDiagnostic (s : String) : String :=
  "\"" ++ String.ofList (s.toList.flatMap escapeDiagnostic) ++ "\""

end ShaderDialect.Text
