/-!
# Calendar dates

A date is the number of days since the first of January 1970 in the Gregorian calendar, extended
to all years.
-/

namespace TableQuery.Calendar

/-- Year, month and day. -/
structure Date where
  year : Int
  month : Nat
  day : Nat
  deriving DecidableEq, Repr

/-- The date of a day number. Years are counted from the first of March, so that the leap day
ends a year, and in eras of four hundred years, which all have the same number of days. -/
def Date.ofDays (days : Int) : Date :=
  let n := days + 719468
  let era := n.fdiv 146097
  let dayOfEra := (n.fmod 146097).toNat
  let yearOfEra := (dayOfEra - dayOfEra / 1460 + dayOfEra / 36524 - dayOfEra / 146096) / 365
  let dayOfYear := dayOfEra - (365 * yearOfEra + yearOfEra / 4 - yearOfEra / 100)
  let march := (5 * dayOfYear + 2) / 153
  let day := dayOfYear - (153 * march + 2) / 5 + 1
  let month := if march < 10 then march + 3 else march - 9
  let year := (yearOfEra : Int) + era * 400 + if month ≤ 2 then 1 else 0
  ⟨year, month, day⟩

def padded (width n : Nat) : String :=
  let digits := Nat.toDigits 10 n
  String.ofList (List.replicate (width - digits.length) '0' ++ digits)

/-- Year, month and day with hyphens; a year outside the four-digit range has its sign. -/
def Date.text (d : Date) : String :=
  let sign := if d.year < 0 then "-" else if d.year > 9999 then "+" else ""
  sign ++ padded 4 d.year.natAbs ++ "-" ++ padded 2 d.month ++ "-" ++ padded 2 d.day

end TableQuery.Calendar
