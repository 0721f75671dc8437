import UtilityCss.Data.Datum
import UtilityCss.Data.Parser
import UtilityCss.Timestamp

/-!
# Dates and times of TOML files

A TOML file can hold a date, a time of day, or both, and both can have an offset from universal
time. A `Moment` is one of these, and `Moment.text` its normal form: a `T` before the time, a `Z`
for universal time itself, and fractions of a second down to nanoseconds without zeros at the end.

No setting is a moment. Where a table is asked for, a moment is one, with its normal form as the
only entry (`Moment.datum`).
-/

namespace UtilityCss.Data.Toml

open UtilityCss.Data.Parser
open UtilityCss.Timestamp (padded)

/-! ### Moments -/

/-- A day of the calendar. -/
structure Date where
  /-- The year. -/
  year : Nat
  /-- The month. -/
  month : Nat
  /-- The day of the month. -/
  day : Nat
deriving DecidableEq, Repr

/-- A time of day. -/
structure TimeOfDay where
  /-- The hour. -/
  hour : Nat
  /-- The minute. -/
  minute : Nat
  /-- The second. -/
  second : Nat
  /-- The nanosecond. -/
  nanosecond : Nat
deriving DecidableEq, Repr

/-- How far a time of day is from universal time. -/
inductive Offset where
  /-- Not at all. -/
  | universal
  /-- By a number of minutes. -/
  | minutes (count : Int)
deriving DecidableEq, Repr

/-- A date, a time of day, or both. -/
inductive Moment where
  /-- A date. -/
  | date (date : Date)
  /-- A time of day. -/
  | time (time : TimeOfDay)
  /-- A time on a date. -/
  | dateTime (date : Date) (time : TimeOfDay) (offset : Option Offset)
deriving DecidableEq, Repr

/-- The normal form of a date. -/
def Date.text (d : Date) : String :=
  padded 4 d.year ++ "-" ++ padded 2 d.month ++ "-" ++ padded 2 d.day

/-- The normal form of a number of nanoseconds. -/
def fractionText (nanosecond : Nat) : String :=
  if nanosecond = 0 then ""
  else
    let digits := (padded 9 nanosecond).toList
    "." ++ String.ofList (digits.reverse.dropWhile (· = '0')).reverse

/-- The normal form of a time of day. -/
def TimeOfDay.text (t : TimeOfDay) : String :=
  padded 2 t.hour ++ ":" ++ padded 2 t.minute ++ ":" ++ padded 2 t.second
    ++ fractionText t.nanosecond

/-- The normal form of an offset. -/
def Offset.text : Offset → String
  | universal => "Z"
  | minutes count =>
    (if count < 0 then "-" else "+") ++ padded 2 (count.natAbs / 60) ++ ":"
      ++ padded 2 (count.natAbs % 60)

namespace Moment

/-- **The normal form of a moment.** -/
def text : Moment → String
  | date d => d.text
  | time t => t.text
  | dateTime d t offset => d.text ++ "T" ++ t.text ++ (offset.map Offset.text).getD ""

/-- The key of a moment that is taken for a table. -/
def key : String := "$__toml_private_datetime"

/-- A moment as a datum. -/
def datum (m : Moment) : Datum := .table [(some key, .text (some m.text))]

end Moment

/-! ### Reading -/

/-- A number of a fixed count of digits between two bounds. -/
def field (count low high : Nat) : Parser Nat := do
  let n := ofDigits 10 (← digits Char.isDigit count)
  guard (low ≤ n && n ≤ high)
  return n

/-- Whether a year has a day more. -/
def isLeapYear (year : Nat) : Bool := year % 4 = 0 && (year % 100 != 0 || year % 400 = 0)

/-- The number of days in a month. -/
def daysIn (year month : Nat) : Nat :=
  if month = 2 then if isLeapYear year then 29 else 28
  else if [4, 6, 9, 11].contains month then 30
  else 31

/-- A date. -/
def date : Parser Date := do
  let year ← field 4 0 9999
  char '-'
  let month ← field 2 1 12
  char '-'
  return ⟨year, month, ← field 2 1 (daysIn year month)⟩

/-- The nanoseconds that the digits after a point write; further digits are cut off. -/
def nanosecondOf (digits : List Char) : Nat :=
  ofDigits 10 (digits ++ List.replicate 9 '0' |>.take 9)

/-- A time of day. -/
def timeOfDay : Parser TimeOfDay := do
  let hour ← field 2 0 23
  char ':'
  let minute ← field 2 0 59
  char ':'
  let second ← field 2 0 60
  let fraction ← maybe (do char '.'; span1 Char.isDigit)
  return ⟨hour, minute, second, nanosecondOf (fraction.getD [])⟩

/-- The offset of a time of day. -/
def offset : Parser Offset :=
  (do
    let _ ← satisfy fun c => c = 'Z' || c = 'z'
    return .universal)
    <|> (do
      let sign ← satisfy fun c => c = '+' || c = '-'
      let hours ← field 2 0 23
      char ':'
      let count : Int := hours * 60 + (← field 2 0 59)
      return .minutes (if sign = '-' then -count else count))

/-- **A date, a time of day, or both.** -/
def moment : Parser Moment :=
  (do
    let d ← date
    let more ← maybe (do
      let _ ← satisfy fun c => c = 'T' || c = 't' || c = ' '
      let t ← timeOfDay
      return (t, ← maybe offset))
    return more.elim (.date d) fun (t, offset) => .dateTime d t offset)
    <|> (do return .time (← timeOfDay))

end UtilityCss.Data.Toml
