/-!
# Calendar

Days of the Gregorian calendar, counted from 1 January 1970. A year is taken to start in March, so
that a leap day is its last day and the lengths of its months repeat every five months.
-/

namespace CodeGraph.Time

structure Date where
  year : Int
  month : Nat
  day : Nat
deriving DecidableEq, Repr

namespace Date

def isLeap (year : Int) : Bool := year % 4 == 0 && (year % 100 != 0 || year % 400 == 0)

def daysInMonth (year : Int) (month : Nat) : Nat :=
  if month == 2 then (if isLeap year then 29 else 28)
  else if month == 4 || month == 6 || month == 9 || month == 11 then 30
  else 31

/-- Whether the calendar has this date. -/
def isValid (d : Date) : Bool :=
  1 ≤ d.month && d.month ≤ 12 && 1 ≤ d.day && d.day ≤ daysInMonth d.year d.month

/-- The days from 1 January 1970 to the date. -/
def toDays (d : Date) : Int :=
  let year := if d.month ≤ 2 then d.year - 1 else d.year
  let month := (d.month + 9) % 12
  let dayOfYear : Int := ((153 * month + 2) / 5 + d.day : Nat) - 1
  year * 365 + year.fdiv 4 - year.fdiv 100 + year.fdiv 400 + dayOfYear - 719468

/-- The date this many days after 1 January 1970. -/
def ofDays (days : Int) : Date :=
  let days := days + 719468
  let era := days.fdiv 146097
  let dayOfEra := (days - era * 146097).toNat
  let yearOfEra :=
    (dayOfEra - dayOfEra / 1460 + dayOfEra / 36524 - dayOfEra / 146096) / 365
  let dayOfYear := dayOfEra - (365 * yearOfEra + yearOfEra / 4 - yearOfEra / 100)
  let month := (5 * dayOfYear + 2) / 153
  let day := dayOfYear - (153 * month + 2) / 5 + 1
  let year : Int := yearOfEra + era * 400
  if month < 10 then ⟨year, month + 3, day⟩ else ⟨year + 1, month - 9, day⟩

end Date

end CodeGraph.Time
