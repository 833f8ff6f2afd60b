import ShaderDialect.Toml.Lexical

/-! Dates and times of TOML documents. -/
namespace ShaderDialect.Toml

structure Date where
  year : Nat
  month : Nat
  day : Nat
  deriving Repr, DecidableEq

structure Time where
  hour : Nat
  minute : Nat
  second : Nat
  nanosecond : Nat
  deriving Repr, DecidableEq

/-- How far a time is ahead of the universal time. -/
inductive Offset
  | universal
  | minutes (n : Int)
  deriving Repr, DecidableEq

/-- A date, a time of day or both; a time with a date may have an offset. -/
structure DateTime where
  date : Option Date
  time : Option Time
  offset : Option Offset
  deriving Repr, DecidableEq

def padded (width n : Nat) : String :=
  let digits := Nat.toDigits 10 n
  String.ofList (List.replicate (width - digits.length) '0' ++ digits)

/-- A number of exactly so many digits and within bounds. -/
def field? (width low high : Nat) (cs : Rest) : Option (Nat × Rest) := do
  let digits := cs.take width
  if digits.length ≠ width then none
  let n ← Text.numeral? 10 digits
  if low ≤ n ∧ n ≤ high then some (n, cs.drop width) else none

namespace Date

def isLeap (year : Nat) : Bool := year % 4 == 0 && (year % 100 != 0 || year % 400 == 0)

def daysIn (year month : Nat) : Nat :=
  if month = 2 then if isLeap year then 29 else 28
  else if month = 4 ∨ month = 6 ∨ month = 9 ∨ month = 11 then 30
  else 31

def text (d : Date) : String := s!"{padded 4 d.year}-{padded 2 d.month}-{padded 2 d.day}"

def read? (cs : Rest) : Option (Date × Rest) := do
  let (year, cs) ← field? 4 0 9999 cs
  let '-' :: cs := cs | none
  let (month, cs) ← field? 2 1 12 cs
  let '-' :: cs := cs | none
  let (day, cs) ← field? 2 1 (daysIn year month) cs
  return (⟨year, month, day⟩, cs)

end Date

namespace Time

/-- The fraction of a second without zeros at its end. -/
def fractionText (nanosecond : Nat) : String :=
  if nanosecond = 0 then ""
  else
    let digits := (padded 9 nanosecond).toList
    "." ++ String.ofList (digits.reverse.dropWhile (· = '0')).reverse

def text (t : Time) : String :=
  s!"{padded 2 t.hour}:{padded 2 t.minute}:{padded 2 t.second}" ++ fractionText t.nanosecond

/-- A fraction of a second, of which nine digits count. -/
def fraction (cs : Rest) : Nat × Rest :=
  match cs with
  | '.' :: rest =>
    let digits := rest.takeWhile Char.isDigit
    let counted := digits.take 9
    match Text.numeral? 10 (counted ++ List.replicate (9 - counted.length) '0') with
    | some n => if digits.isEmpty then (0, cs) else (n, rest.drop digits.length)
    | none => (0, cs)
  | _ => (0, cs)

/-- A time of day; a minute may have a leap second. -/
def read? (cs : Rest) : Option (Time × Rest) := do
  let (hour, cs) ← field? 2 0 23 cs
  let ':' :: cs := cs | none
  let (minute, cs) ← field? 2 0 59 cs
  let ':' :: cs := cs | none
  let (second, cs) ← field? 2 0 60 cs
  let (nanosecond, cs) := fraction cs
  return (⟨hour, minute, second, nanosecond⟩, cs)

end Time

namespace Offset

def text : Offset → String
  | universal => "Z"
  | minutes n =>
    (if n < 0 then "-" else "+") ++ padded 2 (n.natAbs / 60) ++ ":" ++ padded 2 (n.natAbs % 60)

/-- The minutes of an offset without its sign. -/
def clock? (cs : Rest) : Option (Nat × Rest) := do
  let (hour, cs) ← field? 2 0 23 cs
  let ':' :: cs := cs | none
  let (minute, cs) ← field? 2 0 59 cs
  return (60 * hour + minute, cs)

def read? : Rest → Option (Offset × Rest)
  | 'Z' :: cs | 'z' :: cs => some (universal, cs)
  | '+' :: cs => (clock? cs).map fun (n, cs) => (minutes n, cs)
  | '-' :: cs => (clock? cs).map fun (n, cs) => (minutes (-n), cs)
  | _ => none

end Offset

namespace DateTime

def text (d : DateTime) : String :=
  let part {α : Type} (f : α → String) (x : Option α) : String := (x.map f).getD ""
  let between := if d.date.isSome && d.time.isSome then "T" else ""
  part Date.text d.date ++ between ++ part Time.text d.time ++ part Offset.text d.offset

/-- The time that follows a date. -/
def timeAfter? : Rest → Option (Time × Rest)
  | 'T' :: cs | 't' :: cs | ' ' :: cs => Time.read? cs
  | _ => none

def read? (cs : Rest) : Option (DateTime × Rest) :=
  match Date.read? cs with
  | none => (Time.read? cs).map fun (t, cs) => (⟨none, some t, none⟩, cs)
  | some (d, cs) =>
    match timeAfter? cs with
    | none => some (⟨some d, none, none⟩, cs)
    | some (t, cs) =>
      match Offset.read? cs with
      | none => some (⟨some d, some t, none⟩, cs)
      | some (o, cs) => some (⟨some d, some t, some o⟩, cs)

end DateTime
end ShaderDialect.Toml
