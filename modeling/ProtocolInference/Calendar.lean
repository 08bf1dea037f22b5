/-!
# Dates

A moment is a number of seconds since the beginning of 1970. It is written as the digits
of its date and time in the Gregorian calendar.
-/

namespace ProtocolInference.Calendar

/-- A date. -/
structure Date where
  year : Nat
  month : Nat
  day : Nat
  deriving DecidableEq, Repr

/-- The date that is the given number of days after the beginning of 1970. Years are
counted from March, so that the day that is added in leap years is the last one; 719468
days lie between March of the year zero and 1970. -/
def dateOfDays (days : Nat) : Date :=
  let shifted := days + 719468
  let era := shifted / 146097
  let dayOfEra := shifted % 146097
  let yearOfEra := (dayOfEra - dayOfEra / 1460 + dayOfEra / 36524 - dayOfEra / 146096) / 365
  let dayOfYear := dayOfEra - (365 * yearOfEra + yearOfEra / 4 - yearOfEra / 100)
  let index := (5 * dayOfYear + 2) / 153
  let month := if index < 10 then index + 3 else index - 9
  let year := yearOfEra + era * 400 + if month ≤ 2 then 1 else 0
  ⟨year, month, dayOfYear - (153 * index + 2) / 5 + 1⟩

/-- A number with at least the given count of digits. -/
def padded (count n : Nat) : String :=
  let digits := toString n
  String.ofList (List.replicate (count - digits.length) '0') ++ digits

/-- The digits of the date and time of a moment. -/
def stamp (seconds : Nat) : String :=
  let d := dateOfDays (seconds / 86400)
  let time := seconds % 86400
  padded 4 d.year ++ padded 2 d.month ++ padded 2 d.day ++
    padded 2 (time / 3600) ++ padded 2 (time / 60 % 60) ++ padded 2 (time % 60)

/-- The last day of February is followed by the first of March. -/
example : dateOfDays 11016 = ⟨2000, 2, 29⟩ ∧ dateOfDays 11017 = ⟨2000, 3, 1⟩ ∧
    dateOfDays 0 = ⟨1970, 1, 1⟩ := by decide

end ProtocolInference.Calendar
