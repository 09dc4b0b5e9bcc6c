import NearDup.Number.Digits

/-!
# Dates

A moment is a count of seconds since the beginning of 1970, in universal time and without leap
seconds. Its date is taken in the Gregorian calendar, which is continued backwards without end; the
year before year 1 is year 0.

## How it works

Years are counted from March, so that the leap day is the last day of a year, and in eras of 400
years, which all have 146097 days. Day `d` of an era belongs to year `(d - leap days) / 365`, and
day `y` of a year to month `(5 y + 2) / 153` counted from March.
-/

namespace NearDup.Calendar

open Number

structure Date where
  year : Int
  month : Nat
  day : Nat
  deriving DecidableEq, Repr

/-- The date of a day counted from the first day of 1970. -/
def dateOfDay (day : Int) : Date :=
  let shifted := day + 719468
  let era := shifted / 146097
  let d := (shifted % 146097).toNat
  let y := (d - d / 1460 + d / 36524 - d / 146096) / 365
  let dayOfYear := d - (365 * y + y / 4 - y / 100)
  let m := (5 * dayOfYear + 2) / 153
  let month := if m < 10 then m + 3 else m - 9
  ⟨era * 400 + y + (if month ≤ 2 then 1 else 0), month, dayOfYear - (153 * m + 2) / 5 + 1⟩

example : dateOfDay 0 = ⟨1970, 1, 1⟩ ∧ dateOfDay (-1) = ⟨1969, 12, 31⟩ ∧
    dateOfDay 11016 = ⟨2000, 2, 29⟩ ∧ dateOfDay (-719528) = ⟨0, 1, 1⟩ := by decide

/-- A number with zeros in front up to a width. -/
def padded (width n : Nat) : List Char :=
  let ds := digits n
  List.replicate (width - ds.length) '0' ++ ds

/-- A year has at least four digits; one beyond 9999 or before year 0 has a sign. -/
def yearText (year : Int) : List Char :=
  if year < 0 then '-' :: padded 4 year.natAbs
  else if 9999 < year then '+' :: padded 4 year.natAbs
  else padded 4 year.natAbs

/-- A date with dashes. -/
def dateText (date : Date) : List Char :=
  yearText date.year ++ '-' :: padded 2 date.month ++ '-' :: padded 2 date.day

/-- A second of a day with colons. -/
def timeText (time : Nat) : List Char :=
  padded 2 (time / 3600) ++ ':' :: padded 2 (time / 60 % 60) ++ ':' :: padded 2 (time % 60)

/-- A moment as date and time of day. -/
def momentText (seconds : Int) : String :=
  String.ofList <|
    dateText (dateOfDay (seconds / 86400)) ++
      ' ' :: timeText (seconds % 86400).toNat ++ " UTC".toList

/-- Billionths of a second with as few groups of three digits as hold them. -/
def fractionText (billionths : Nat) : List Char :=
  if billionths = 0 then []
  else if billionths % 1000000 = 0 then '.' :: padded 3 (billionths / 1000000)
  else if billionths % 1000 = 0 then '.' :: padded 6 (billionths / 1000)
  else '.' :: padded 9 billionths

/-- A moment as a time stamp. -/
def stampText (seconds : Int) (billionths : Nat) : String :=
  String.ofList <|
    dateText (dateOfDay (seconds / 86400)) ++ 'T' :: timeText (seconds % 86400).toNat ++
      fractionText billionths ++ "+00:00".toList

example : stampText 86399 120000000 = "1970-01-01T23:59:59.120+00:00" := by decide +kernel

example : momentText (-1) = "1969-12-31 23:59:59 UTC" ∧
    momentText 253402300800 = "+10000-01-01 00:00:00 UTC" ∧
    momentText (-100000000000) = "-1199-02-15 14:13:20 UTC" := by decide +kernel

end NearDup.Calendar
