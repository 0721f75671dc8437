/-!
# Timestamps

The header comments of the outputs show a time of day in universal time, to the millisecond:
`2024-01-01T00:00:00.000Z`. The calendar counts days from the first of March of year zero, so that
the day which a leap year adds is the last of its year, and years come in groups of four hundred
that all have the same number of days.
-/

namespace UtilityCss.Timestamp

/-- The number of days in four hundred years. -/
def eraDays : Nat := 146097

/-- The number of days from the first of March of year zero to the first of January 1970. -/
def epochDays : Nat := 719468

/-- The year, month and day of a number of days after the first of January 1970. -/
def dateOf (days : Nat) : Nat × Nat × Nat :=
  let era := (days + epochDays) / eraDays
  let day := (days + epochDays) % eraDays
  let year := (day - day / 1460 + day / 36524 - day / 146096) / 365
  let dayOfYear := day - (365 * year + year / 4 - year / 100)
  let fromMarch := (5 * dayOfYear + 2) / 153
  let month := if fromMarch < 10 then fromMarch + 3 else fromMarch - 9
  (era * 400 + year + (if month ≤ 2 then 1 else 0), month,
    dayOfYear - (153 * fromMarch + 2) / 5 + 1)

/-- A number with zeros in front, so that it has at least a given number of digits. -/
def padded (width n : Nat) : String :=
  let digits := Nat.toDigits 10 n
  String.ofList (List.replicate (width - digits.length) '0' ++ digits)

/-- **The timestamp** of a number of milliseconds after the start of 1970. -/
def ofMilliseconds (milliseconds : Nat) : String :=
  let seconds := milliseconds / 1000
  let (year, month, day) := dateOf (seconds / 86400)
  padded 4 year ++ "-" ++ padded 2 month ++ "-" ++ padded 2 day
    ++ "T" ++ padded 2 (seconds / 3600 % 24) ++ ":" ++ padded 2 (seconds / 60 % 60)
    ++ ":" ++ padded 2 (seconds % 60) ++ "." ++ padded 3 (milliseconds % 1000) ++ "Z"

example : ofMilliseconds 0 = "1970-01-01T00:00:00.000Z" := by decide

example : ofMilliseconds 1709210096789 = "2024-02-29T12:34:56.789Z" := by decide

end UtilityCss.Timestamp
