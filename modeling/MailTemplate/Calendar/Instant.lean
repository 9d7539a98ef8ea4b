/-!
# Points in time

A point in time is a number of milliseconds since the first of January 1970, and can be before it.
Its date is that of the Gregorian calendar, which is continued to all years, with a year zero.

The calendar repeats itself every four hundred years.  When years are taken to begin in March, the
leap day is the last day of its year, and every five months from March and from August on have 153
days.

## Main definitions

* `Date`, `Date.ofDays` — the date of a day.
* `Instant.date`, `Instant.stamp` — the date of a point in time, and how it is written.
-/

namespace MailTemplate

/-- A date. -/
structure Date where
  /-- The year. -/
  year : Int
  /-- The month, from one. -/
  month : Nat
  /-- The day, from one. -/
  day : Nat
  deriving DecidableEq, Repr

namespace Date

/-- The days of four hundred years. -/
def daysOfEra : Nat := 146097

/-- The days from the first of March of the year zero to the first of January 1970. -/
def daysToEpoch : Nat := 719468

/-- The number of years that are over on a day of an era. -/
def yearsOver (day : Nat) : Nat := (day - day / 1460 + day / 36524 - day / 146096) / 365

/-- The days of so many years from the beginning of an era. -/
def daysOfYears (years : Nat) : Nat := 365 * years + years / 4 - years / 100

/-- The date of the day that is so many days after the first of January 1970. -/
def ofDays (days : Int) : Date :=
  let shifted := days + daysToEpoch
  let era := shifted.fdiv daysOfEra
  let day := (shifted.fmod daysOfEra).toNat
  let years := yearsOver day
  let dayOfYear := day - daysOfYears years
  let month := (5 * dayOfYear + 2) / 153
  let year := era * 400 + years
  { year := if month < 10 then year else year + 1
    month := if month < 10 then month + 3 else month - 9
    day := dayOfYear - (153 * month + 2) / 5 + 1 }

/-- The digits of a number, with zeros before it up to a width. -/
def digits (width n : Nat) : String :=
  let s := toString n
  String.ofList (List.replicate (width - s.length) '0') ++ s

/-- A year.  One that has not four digits has a sign. -/
def yearText (year : Int) : String :=
  let sign := if year < 0 then "-" else if 9999 < year then "+" else ""
  sign ++ digits 4 year.natAbs

/-- A date: year, month and day. -/
def text (d : Date) : String := yearText d.year ++ "-" ++ digits 2 d.month ++ "-" ++ digits 2 d.day

end Date

/-- A point in time: milliseconds since the first of January 1970. -/
structure Instant where
  /-- The number of milliseconds. -/
  milliseconds : Int
  deriving DecidableEq, Repr

namespace Instant

/-- The milliseconds of a day. -/
def millisecondsOfDay : Nat := 86400000

/-- The date. -/
def date (t : Instant) : Date := .ofDays (t.milliseconds.fdiv millisecondsOfDay)

/-- The time of the day, in milliseconds. -/
def timeOfDay (t : Instant) : Nat := (t.milliseconds.fmod millisecondsOfDay).toNat

/-- Date and time of the day to the millisecond. -/
def stamp (t : Instant) : String :=
  let time := t.timeOfDay
  t.date.text ++ "T" ++ Date.digits 2 (time / 3600000) ++ ":" ++
    Date.digits 2 (time / 60000 % 60) ++ ":" ++ Date.digits 2 (time / 1000 % 60) ++ "." ++
    Date.digits 3 (time % 1000) ++ "Z"

end Instant

end MailTemplate
