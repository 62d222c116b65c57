/-
# Dates

Days are counted from the first of January 1970.  Years are taken to start in March, so that a leap
day is the last day of its year, and come in eras of 400 years, all of which have 146097 days.
-/
import ServiceGate.Text.Basic

namespace ServiceGate

/-- A day of the calendar. -/
structure Date where
  year : Nat
  month : Nat
  day : Nat
deriving DecidableEq, Repr

namespace Date

/-- The days from the first of March of the year 0 to the day from which days are counted. -/
def marchOrigin : Nat := 719468

/-- The number of the year within an era, from a day within the era. -/
def yearOfEra (day : Nat) : Nat :=
  (day - day / 1460 + day / 36524 - day / 146096) / 365

/-- The date that lies a number of days behind the first of January 1970. -/
def ofDays (days : Nat) : Date :=
  let shifted := days + marchOrigin
  let dayOfEra := shifted % 146097
  let year := yearOfEra dayOfEra
  let dayOfYear := dayOfEra - (365 * year + year / 4 - year / 100)
  let monthFromMarch := (5 * dayOfYear + 2) / 153
  let month := if monthFromMarch < 10 then monthFromMarch + 3 else monthFromMarch - 9
  { year := year + 400 * (shifted / 146097) + (if month ≤ 2 then 1 else 0)
    month := month
    day := dayOfYear - (153 * monthFromMarch + 2) / 5 + 1 }

/-- A number with zeros in front, up to a width. -/
def padded (width n : Nat) : Text :=
  let ds := Nat.toDigits 10 n
  List.replicate (width - ds.length) '0' ++ ds

def text (d : Date) : Text :=
  padded 4 d.year ++ '-' :: padded 2 d.month ++ '-' :: padded 2 d.day

example : ofDays 0 = ⟨1970, 1, 1⟩ ∧ ofDays 59 = ⟨1970, 3, 1⟩ ∧ ofDays 11016 = ⟨2000, 2, 29⟩ := by
  decide

end Date

end ServiceGate
