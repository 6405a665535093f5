import Excerpt.Text.Numeral

/-!
# Days

A moment is counted in seconds from the start of 1970. Its day is found by counting whole days from a
first of March, so that the day a leap year adds is the last one of its year.
-/

namespace Excerpt

/-- A day of the calendar. -/
structure Day where
  year : Int
  month : Nat
  day : Nat
deriving Repr, DecidableEq

namespace Day

/-- The days of four hundred years. -/
def eraDays : Nat := 146097

/-- The day after `n` days from the first of March of year zero. -/
def ofMarchDays (n : Int) : Day :=
  let era := n.fdiv eraDays
  let inEra := (n.fmod eraDays).toNat
  let yearOfEra := (inEra - inEra / 1460 + inEra / 36524 - inEra / 146096) / 365
  let inYear := inEra - (365 * yearOfEra + yearOfEra / 4 - yearOfEra / 100)
  let marchMonth := (5 * inYear + 2) / 153
  let day := inYear - (153 * marchMonth + 2) / 5 + 1
  let month := if marchMonth < 10 then marchMonth + 3 else marchMonth - 9
  ⟨era * 400 + yearOfEra + (if month ≤ 2 then 1 else 0), month, day⟩

def ofSeconds (seconds : Int) : Day :=
  ofMarchDays (seconds.fdiv 86400 + 719468)

/-- The day of a moment from the second day of the year one to the end of the year 9999. -/
def ofSeconds? (seconds : Int) : Option Day :=
  if -62135510400 ≤ seconds && seconds ≤ 253402300799 then some (ofSeconds seconds) else none

def twoDigits (n : Nat) : String :=
  if n < 10 then s!"0{n}" else s!"{n}"

/-- The day as year, month and day with hyphens between. -/
def toString (d : Day) : String :=
  s!"{d.year}-{twoDigits d.month}-{twoDigits d.day}"

end Day

end Excerpt
