/-!
# The calendar

Days of the proleptic Gregorian calendar, counted from 0001-01-01 up to 9999-12-31, with their civil dates
and their week dates. A day is its number; the civil date is computed in both directions.
-/
namespace Wireform.Calendar

def isLeap (year : Nat) : Bool :=
  year % 4 == 0 && (year % 100 != 0 || year % 400 == 0)

def monthLengths (leap : Bool) : List Nat :=
  [31, if leap then 29 else 28, 31, 30, 31, 30, 31, 31, 30, 31, 30, 31]

/-- The days before the first of January of a positive year. -/
def daysBeforeYear (year : Nat) : Nat :=
  let past := year - 1
  past * 365 + past / 4 - past / 100 + past / 400

/-- The days of months of the given lengths together. -/
def daysOf (lengths : List Nat) : Nat :=
  lengths.foldr (· + ·) 0

/-- The days of a year before the first of a month, months counted from one. -/
def daysBeforeMonth (leap : Bool) (month : Nat) : Nat :=
  daysOf ((monthLengths leap).take (month - 1))

/-- The length of a month; months that do not exist have no days. -/
def daysInMonth (leap : Bool) (month : Nat) : Nat :=
  if month = 0 then 0 else ((monthLengths leap)[month - 1]?).getD 0

/-- The number of days from 0001-01-01 to 9999-12-31, both included. -/
def dayCount : Nat := 3652059

structure Civil where
  year : Nat
  month : Nat
  day : Nat
deriving DecidableEq

/-- A date that exists in the years 1 to 9999. -/
def Civil.valid (c : Civil) : Bool :=
  1 ≤ c.year && c.year ≤ 9999 && 1 ≤ c.day && c.day ≤ daysInMonth (isLeap c.year) c.month

/-- The number of days before a date. -/
def Civil.ordinal (c : Civil) : Nat :=
  daysBeforeYear c.year + daysBeforeMonth (isLeap c.year) c.month + (c.day - 1)

/-- The year of a day and the days of that year before it. Whole cycles of 400, 100, 4 and 1 years are
taken off in turn; the last day of a cycle would begin a fifth part of it and belongs to the fourth. -/
def splitYear (ordinal : Nat) : Nat × Nat :=
  let fourCenturies := ordinal / 146097
  let rest := ordinal % 146097
  let centuries := min (rest / 36524) 3
  let rest := rest - centuries * 36524
  let fourYears := rest / 1461
  let rest := rest % 1461
  let years := min (rest / 365) 3
  (fourCenturies * 400 + centuries * 100 + fourYears * 4 + years + 1, rest - years * 365)

/-- The month of a day of the year and the days of that month before it, walking over the lengths. -/
def splitMonth : List Nat → Nat → Nat → Nat × Nat
  | [], month, rest => (month, rest)
  | length :: lengths, month, rest =>
    if rest < length then (month, rest) else splitMonth lengths (month + 1) (rest - length)

def civil (ordinal : Nat) : Civil :=
  let (year, rest) := splitYear ordinal
  let (month, rest) := splitMonth (monthLengths (isLeap year)) 1 rest
  ⟨year, month, rest + 1⟩

/-- The day of the week, Monday being zero. -/
def weekday (ordinal : Nat) : Nat :=
  ordinal % 7

/-- The Monday of the first week of a year: the week with the year's first Thursday. -/
def firstMonday (year : Nat) : Nat :=
  let first := daysBeforeYear year
  if weekday first ≤ 3 then first - weekday first else first + 7 - weekday first

/-- Whether a year has 53 weeks: it begins on a Thursday, or on a Wednesday and is a leap year. -/
def hasLongWeeks (year : Nat) : Bool :=
  let start := weekday (daysBeforeYear year)
  start == 3 || (start == 2 && isLeap year)

/-- The day that a week date names, if it lies in the years 1 to 9999. -/
def ofWeekDate? (year week day : Nat) : Option Nat :=
  let weeks := if hasLongWeeks year then 53 else 52
  if 1 ≤ year ∧ year ≤ 9999 ∧ 1 ≤ week ∧ week ≤ weeks ∧ 1 ≤ day ∧ day ≤ 7 then
    let ordinal := firstMonday year + (week - 1) * 7 + (day - 1)
    if ordinal < dayCount then some ordinal else none
  else none

/-- The day that a civil date names, if there is one. -/
def ofCivil? (year month day : Nat) : Option Nat :=
  let date : Civil := ⟨year, month, day⟩
  if date.valid then some date.ordinal else none

end Wireform.Calendar
