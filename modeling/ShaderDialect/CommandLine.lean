/-! Words on a command line. A command has options, which are named, and operands, which are not. -/
namespace ShaderDialect

structure CommandOption where
  letter : Option Char
  word : String
  /-- What the option's value is called; an option without one is a flag. -/
  value : Option String
  /-- Whether the option may be given more than once. -/
  repeats : Bool
  /-- Which values are accepted. -/
  accepts : String → Bool
  help : String

namespace CommandOption

def flag (word help : String) : CommandOption :=
  { letter := none, word, value := none, repeats := false, accepts := fun _ => true, help }

/-- An option that is given once, with a value. -/
def valued (letter : Option Char) (word value : String) (accepts : String → Bool) (help : String) :
    CommandOption :=
  { letter, word, value := some value, repeats := false, accepts, help }

end CommandOption

/-- What a command takes besides its options. -/
inductive Operands
  | none
  | one (name help : String)
  /-- At least one. -/
  | many (name help : String)
  /-- Any number of them. -/
  | any (name help : String)

structure CommandForm where
  name : String
  about : String
  operands : Operands
  options : List CommandOption

/-- What a command line says: the values of options by their words, and the operands. -/
structure Arguments where
  options : List (String × String)
  operands : List String
  deriving Repr, DecidableEq

/-- Why the words of a command line are not carried out. -/
inductive Usage
  /-- Help was asked for. -/
  | help
  | noCommand
  | unknownCommand (word : String)
  | unexpected (word : String)
  | missingValue (option : String)
  | needlessValue (option : String)
  | invalidValue (option value : String)
  | repeated (option : String)
  | missingOperand (name : String)
  deriving Repr, DecidableEq

def Usage.message : Usage → String
  | help => "help was asked for"
  | noCommand => "a command is required"
  | unknownCommand word => s!"unrecognized command '{word}'"
  | unexpected word => s!"unexpected argument '{word}' found"
  | missingValue option => s!"a value is required for '{option}' but none was supplied"
  | needlessValue option => s!"'{option}' takes no value"
  | invalidValue option value => s!"invalid value '{value}' for '{option}'"
  | repeated option => s!"'{option}' cannot be used multiple times"
  | missingOperand name => s!"the required argument <{name}> was not provided"

namespace Arguments

def empty : Arguments := ⟨[], []⟩

def get? (a : Arguments) (word : String) : Option String := a.options.lookup word

def getAll (a : Arguments) (word : String) : List String :=
  a.options.filterMap fun (w, v) => if w = word then some v else none

def has (a : Arguments) (word : String) : Bool := (a.get? word).isSome

end Arguments

namespace CommandForm
variable (f : CommandForm)

def addOption (a : Arguments) (o : CommandOption) (value : String) : Except Usage Arguments :=
  if a.has o.word ∧ !o.repeats then .error (.repeated o.word)
  else if !o.accepts value then .error (.invalidValue o.word value)
  else .ok { a with options := a.options ++ [(o.word, value)] }

def addOperand (a : Arguments) (word : String) : Except Usage Arguments :=
  let added : Arguments := { a with operands := a.operands ++ [word] }
  match f.operands with
  | .none => .error (.unexpected word)
  | .one name _ =>
    if !a.operands.isEmpty then .error (.unexpected word)
    else if word.isEmpty then .error (.missingValue name)
    else .ok added
  | .many name _ => if word.isEmpty then .error (.missingValue name) else .ok added
  | .any _ _ => .ok added

/-- Whether a word names an option. A single dash does not. -/
def isOption (word : String) : Bool :=
  match word.toList with
  | '-' :: _ :: _ => true
  | _ => false

/-- An option as it is written, with the value that is attached to it. -/
inductive Written
  | operand
  | long (word : String) (value : Option String)
  | short (letter : Char) (value : Option String)

def written (word : String) : Written :=
  match word.toList with
  | '-' :: '-' :: cs =>
    match cs.dropWhile (· ≠ '=') with
    | '=' :: value => .long (String.ofList (cs.takeWhile (· ≠ '='))) (some (String.ofList value))
    | _ => .long (String.ofList cs) none
  | ['-', c] => .short c none
  | '-' :: c :: '=' :: value => .short c (some (String.ofList value))
  | '-' :: c :: value => .short c (some (String.ofList value))
  | _ => .operand

/-- The option that a word stands for, and its attached value. -/
def find (word : String) : Written → Except Usage (CommandOption × Option String)
  | .operand => .error (.unexpected word)
  | .long name value =>
    match f.options.find? (·.word = name) with
    | some o => .ok (o, value)
    | none => .error (if name = "help" ∧ value.isNone then .help else .unexpected word)
  | .short letter value =>
    match f.options.find? (·.letter = some letter) with
    | some o => .ok (o, value)
    | none => .error (if letter = 'h' then .help else .unexpected word)

/-- Reads words one after the other. A value is attached to its option or is the next word; after
two dashes everything is an operand. -/
def readWords (a : Arguments) : List String → Except Usage Arguments
  | [] => .ok a
  | word :: rest =>
    if word = "--" then rest.foldlM (addOperand f) a
    else if !isOption word then addOperand f a word >>= fun a => readWords a rest
    else
      match find f word (written word) with
      | .error e => .error e
      | .ok (o, attached) =>
        match o.value, attached with
        | none, none => addOption a o "" >>= fun a => readWords a rest
        | none, some _ => .error (.needlessValue o.word)
        | some _, some value => addOption a o value >>= fun a => readWords a rest
        | some _, none =>
          match rest with
          | [] => .error (.missingValue o.word)
          | value :: rest =>
            if isOption value then .error (.missingValue o.word)
            else addOption a o value >>= fun a => readWords a rest

def read (words : List String) : Except Usage Arguments := do
  let a ← f.readWords .empty words
  match f.operands with
  | .none | .any _ _ => return a
  | .one name _ | .many name _ =>
    if a.operands.isEmpty then throw (.missingOperand name) else return a

end CommandForm
end ShaderDialect
