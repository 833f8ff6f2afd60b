import ShaderDialect.CommandLine

/-! Help on commands. -/
namespace ShaderDialect

def padRight (width : Nat) (s : String) : String :=
  s ++ String.ofList (List.replicate (width - s.length) ' ')

/-- Two columns, the second one aligned. -/
def columns (rows : List (String × String)) : List String :=
  let width := (rows.map fun (left, _) => left.length).foldl max 0
  rows.map fun (left, right) => "  " ++ padRight width left ++ "  " ++ right

def titled (title : String) (rows : List (String × String)) : List String :=
  if rows.isEmpty then [] else ["", title ++ ":"] ++ columns rows

def CommandOption.helpOption : CommandOption := { flag "help" "Print help" with letter := some 'h' }

def CommandOption.heading (o : CommandOption) : String :=
  let letter :=
    match o.letter with
    | some c => String.ofList ['-', c, ',', ' ']
    | none => "    "
  let value :=
    match o.value with
    | some name => s!" <{name}>"
    | none => ""
  letter ++ "--" ++ o.word ++ value

def Operands.rows : Operands → List (String × String)
  | none => []
  | one name help => [(s!"<{name}>", help)]
  | many name help => [(s!"<{name}>...", help)]
  | any name help => [(s!"[{name}]...", help)]

namespace CommandForm

def usage (f : CommandForm) : String :=
  " ".intercalate (["Usage: fsl", f.name] ++
    (if f.options.isEmpty then [] else ["[OPTIONS]"]) ++ f.operands.rows.map (·.1))

def describe (f : CommandForm) (options : List CommandOption) : String :=
  "\n".intercalate ([f.about, "", f.usage] ++ titled "Arguments" f.operands.rows ++
    titled "Options" (options.map fun o => (o.heading, o.help))) ++ "\n"

def help (f : CommandForm) : String := f.describe (f.options ++ [.helpOption])

/-- The command that prints help. It has no help option itself. -/
def helpForm : CommandForm :=
  { name := "help"
    about := "Print this message or the help of the given subcommand(s)"
    operands := .any "COMMAND" "Print help for the subcommand(s)"
    options := [] }

end CommandForm

def commandsHelp (about : String) (forms : List CommandForm) : String :=
  let commands := (forms ++ [CommandForm.helpForm]).map fun f => (f.name, f.about)
  let help := CommandOption.helpOption
  "\n".intercalate ([about, "", "Usage: fsl <COMMAND>"] ++ titled "Commands" commands ++
    titled "Options" [(help.heading, help.help)]) ++ "\n"

end ShaderDialect
