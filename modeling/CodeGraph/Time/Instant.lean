import CodeGraph.Text.Blank
import CodeGraph.Time.Calendar

/-!
# Instants

A point in time with nanoseconds, its RFC 3339 text and the reading of such texts. Reading is
lenient: blanks may stand before the numbers and separators, numbers may have fewer digits, and a
blank may part date and time. It gives up on a date outside the calendar and on years further out
than `minYear` and `maxYear`.
-/

namespace CodeGraph.Time

/-- Seconds from the start of 1970 in UTC, and nanoseconds after them. In a leap second the
nanoseconds run on from `10 ^ 9`. -/
structure Instant where
  seconds : Int
  nanos : Nat
deriving DecidableEq, Repr, Inhabited

namespace Instant

def minYear : Int := -262143
def maxYear : Int := 262142

def secondsPerDay : Nat := 86400

/-- The instants whose year is between `minYear` and `maxYear`. -/
def inRange (i : Instant) : Bool :=
  let year := (Date.ofDays (i.seconds.fdiv secondsPerDay)).year
  minYear ≤ year && year ≤ maxYear

def epoch : Instant := ⟨0, 0⟩

/-- The instant this many seconds after the start of 1970, if it is in range. -/
def ofSeconds? (seconds : Int) : Option Instant :=
  let i : Instant := ⟨seconds, 0⟩
  if i.inRange then some i else none

protected def le (i j : Instant) : Bool :=
  i.seconds < j.seconds || (i.seconds == j.seconds && i.nanos ≤ j.nanos)

protected def min (i j : Instant) : Instant := if i.le j then i else j

protected def max (i j : Instant) : Instant := if j.le i then i else j

/-! ## Writing -/

/-- The digits of `n` with zeros in front up to the width. -/
def padded (width n : Nat) : String :=
  let digits := toString n
  "".pushn '0' (width - digits.length) ++ digits

/-- Years of four digits have no sign. -/
def yearText (year : Int) : String :=
  if 0 ≤ year ∧ year ≤ 9999 then padded 4 year.toNat
  else (if year < 0 then "-" else "+") ++ padded 4 year.natAbs

/-- The fraction of a second in as many of 0, 3, 6 and 9 digits as it needs. -/
def fractionText (nanos : Nat) : String :=
  if nanos == 0 then ""
  else if nanos % 1000000 == 0 then s!".{padded 3 (nanos / 1000000)}"
  else if nanos % 1000 == 0 then s!".{padded 6 (nanos / 1000)}"
  else s!".{padded 9 nanos}"

/-- The date and time in UTC, without the offset. -/
def localText (i : Instant) : String :=
  let date := Date.ofDays (i.seconds.fdiv secondsPerDay)
  let time := (i.seconds.fmod secondsPerDay).toNat
  let leap := i.nanos / 1000000000
  s!"{yearText date.year}-{padded 2 date.month}-{padded 2 date.day}"
    ++ s!"T{padded 2 (time / 3600)}:{padded 2 (time / 60 % 60)}:{padded 2 (time % 60 + leap)}"
    ++ fractionText (i.nanos % 1000000000)

/-- The form for interchange, which marks UTC by a `Z`. -/
def zuluText (i : Instant) : String := i.localText ++ "Z"

/-- The form for storage, which spells the offset out. -/
def offsetText (i : Instant) : String := i.localText ++ "+00:00"

/-! ## Reading -/

/-- Reads between one and `most` digits. -/
def number? (most : Option Nat) (l : List Char) : Option (Nat × List Char) :=
  let digits := l.takeWhile Char.isDigit
  let digits := match most with
    | some n => digits.take n
    | none => digits
  if digits.isEmpty then none
  else some (digits.foldl (fun n c => n * 10 + (c.toNat - '0'.toNat)) 0, l.drop digits.length)

/-- A number of at most two digits within a range, after blanks. -/
def field? (lo hi : Nat) (l : List Char) : Option (Nat × List Char) := do
  let (n, rest) ← number? (some 2) (Text.trimStartChars l)
  if lo ≤ n ∧ n ≤ hi then some (n, rest) else none

/-- The rest of the text after blanks and the character `c`. -/
def separator? (c : Char) (l : List Char) : Option (List Char) :=
  match Text.trimStartChars l with
  | d :: rest => if d = c then some rest else none
  | [] => none

/-- A year with a sign may have any number of digits. -/
def year? (l : List Char) : Option (Int × List Char) :=
  match Text.trimStartChars l with
  | '-' :: rest => (number? none rest).map fun (n, rest) => (-(n : Int), rest)
  | '+' :: rest => (number? none rest).map fun (n, rest) => ((n : Int), rest)
  | l => (number? (some 4) l).map fun (n, rest) => ((n : Int), rest)

/-- The nanoseconds after a point. Digits after the ninth do not count. -/
def fraction? : List Char → Option (Nat × List Char)
  | '.' :: rest => do
    let (n, after) ← number? (some 9) rest
    let read := rest.length - after.length
    return (n * Nat.pow 10 (9 - read), after.dropWhile Char.isDigit)
  | l => some (0, l)

/-- Two digits, the first of them at most `most`. -/
def twoDigits? (most : Char) : List Char → Option (Nat × List Char)
  | a :: b :: rest =>
    if a.isDigit ∧ b.isDigit ∧ a ≤ most then
      some ((a.toNat - '0'.toNat) * 10 + (b.toNat - '0'.toNat), rest)
    else none
  | _ => none

/-- The seconds by which local time is ahead of UTC. -/
def offset? (l : List Char) : Option (Int × List Char) :=
  let signed (negative : Bool) (l : List Char) : Option (Int × List Char) := do
    let (hours, rest) ← twoDigits? '9' l
    let (minutes, rest) ← twoDigits? '5' (rest.dropWhile fun c => c == ':' || Text.isBlank c)
    let seconds : Int := (hours * 3600 + minutes * 60 : Nat)
    if hours < 24 then some (if negative then -seconds else seconds, rest) else none
  match l with
  | 'Z' :: rest | 'z' :: rest => some (0, rest)
  | '+' :: rest => signed false rest
  | '-' :: rest | '\u2212' :: rest => signed true rest
  | u :: t :: c :: rest =>
    if u.toUpper = 'U' ∧ t.toUpper = 'T' ∧ c.toUpper = 'C' then some (0, rest) else none
  | _ => none

/-- The date and the text after it. -/
def date? (l : List Char) : Option (Date × List Char) := do
  let (year, l) ← year? l
  let (month, l) ← field? 1 12 (← separator? '-' l)
  let (day, l) ← field? 1 31 (← separator? '-' l)
  let date : Date := ⟨year, month, day⟩
  if date.isValid ∧ minYear ≤ year ∧ year ≤ maxYear then some (date, l) else none

/-- The second of the day, the nanoseconds after it, and the text after the time. A second with
number 60 is a leap second. -/
def time? (l : List Char) : Option (Nat × Nat × List Char) := do
  let (hour, l) ← field? 0 23 l
  let (minute, l) ← field? 0 59 (← separator? ':' l)
  let (second, l) ← field? 0 60 (← separator? ':' l)
  let (nanos, l) ← fraction? l
  let leap := second / 60
  return (hour * 3600 + minute * 60 + second - leap, nanos + leap * 1000000000, l)

/-- The character between date and time. -/
def parting? : List Char → Option (List Char)
  | 'T' :: l | 't' :: l | ' ' :: l => some l
  | _ => none

/-- The instant an RFC 3339 text stands for. -/
def ofText? (s : String) : Option Instant := do
  let (date, l) ← date? s.toList
  let (second, nanos, l) ← time? (← parting? l)
  let (ahead, l) ← offset? (Text.trimStartChars l)
  let i : Instant := ⟨date.toDays * secondsPerDay + second - ahead, nanos⟩
  if (Text.trimStartChars l).isEmpty ∧ i.inRange then some i else none

end Instant

end CodeGraph.Time
