/-! What the operating system answers when it cannot do what it is asked for. -/
namespace ShaderDialect

inductive IoFault
  | notFound
  | permissionDenied
  | alreadyExists
  | notADirectory
  | isADirectory
  | nameTooLong
  | networkUnreachable
  | connectionRefused
  | addressNotAvailable
  | nulInName
  | notUtf8
  | invalidAddress
  | invalidPortNumber
  deriving Repr, DecidableEq, Inhabited

namespace IoFault

/-- The system's error number; the faults found in data rather than by the system have none. -/
def code? : IoFault → Option Nat
  | notFound => some 2
  | permissionDenied => some 13
  | alreadyExists => some 17
  | notADirectory => some 20
  | isADirectory => some 21
  | nameTooLong => some 36
  | networkUnreachable => some 101
  | connectionRefused => some 111
  | addressNotAvailable => some 99
  | nulInName | notUtf8 | invalidAddress | invalidPortNumber => none

def kind : IoFault → String
  | notFound => "NotFound"
  | permissionDenied => "PermissionDenied"
  | alreadyExists => "AlreadyExists"
  | notADirectory => "NotADirectory"
  | isADirectory => "IsADirectory"
  | nameTooLong => "InvalidFilename"
  | networkUnreachable => "NetworkUnreachable"
  | connectionRefused => "ConnectionRefused"
  | addressNotAvailable => "AddrNotAvailable"
  | notUtf8 => "InvalidData"
  | nulInName | invalidAddress | invalidPortNumber => "InvalidInput"

def description : IoFault → String
  | notFound => "No such file or directory"
  | permissionDenied => "Permission denied"
  | alreadyExists => "File exists"
  | notADirectory => "Not a directory"
  | isADirectory => "Is a directory"
  | nameTooLong => "File name too long"
  | networkUnreachable => "Network is unreachable"
  | connectionRefused => "Connection refused"
  | addressNotAvailable => "Cannot assign requested address"
  | nulInName => "file name contained an unexpected NUL byte"
  | notUtf8 => "stream did not contain valid UTF-8"
  | invalidAddress => "invalid socket address"
  | invalidPortNumber => "invalid port value"

def message (f : IoFault) : String :=
  match f.code? with
  | some n => s!"{f.description} (os error {n})"
  | none => f.description

/-- The long form, which names the number and the kind. -/
def details (f : IoFault) : String :=
  match f.code? with
  | some n => s!"Os \x7b code: {n}, kind: {f.kind}, message: \"{f.description}\" \x7d"
  | none => s!"Error \x7b kind: {f.kind}, message: \"{f.description}\" \x7d"

end IoFault
end ShaderDialect
