/-!
# The calendar

Days of the Gregorian calendar, continued into the past and into the future, as year,
month and day. The library only ever moves to the day before or after, when the time of
another place is brought to UTC, so days are not counted from any epoch.

Years are bounded: a day before `firstYear` or after `lastYear` does not exist.
-/

namespace SealedLog

structure Date where
  year : Int
  month : Nat
  day : Nat
deriving DecidableEq, Repr

namespace Date

def firstYear : Int := -262143

def lastYear : Int := 262142

def isLeapYear (year : Int) : Bool :=
  year % 4 == 0 && (year % 100 != 0 || year % 400 == 0)

/-- The number of days of a month, `1 ≤ month ≤ 12`. -/
def daysIn (year : Int) (month : Nat) : Nat :=
  if month = 2 then (if isLeapYear year then 29 else 28)
  else if month = 4 ∨ month = 6 ∨ month = 9 ∨ month = 11 then 30
  else 31

def exists? (d : Date) : Bool :=
  firstYear ≤ d.year && d.year ≤ lastYear && 1 ≤ d.month && d.month ≤ 12 &&
    1 ≤ d.day && d.day ≤ daysIn d.year d.month

def next? (d : Date) : Option Date :=
  if d.day < daysIn d.year d.month then some { d with day := d.day + 1 }
  else if d.month < 12 then some ⟨d.year, d.month + 1, 1⟩
  else if d.year < lastYear then some ⟨d.year + 1, 1, 1⟩
  else none

def previous? (d : Date) : Option Date :=
  if 1 < d.day then some { d with day := d.day - 1 }
  else if 1 < d.month then some ⟨d.year, d.month - 1, daysIn d.year (d.month - 1)⟩
  else if firstYear < d.year then some ⟨d.year - 1, 12, 31⟩
  else none

end Date

/-- A moment in UTC, to the nanosecond. In a leap second `second` stays at the last
second before it and `nano` goes on past one billion. -/
structure Instant where
  date : Date
  /-- The second of the day. -/
  second : Nat
  nano : Nat
deriving DecidableEq, Repr

namespace Instant

def epoch : Instant := ⟨⟨1970, 1, 1⟩, 0, 0⟩

/-- The moment at which clocks that are `offset` seconds ahead of UTC show a time. -/
def ofLocal? (date : Date) (second nano : Nat) (offset : Int) : Option Instant :=
  let shifted := (second : Int) - offset
  if shifted < 0 then date.previous?.map (⟨·, (shifted + 86400).toNat, nano⟩)
  else if 86400 ≤ shifted then date.next?.map (⟨·, (shifted - 86400).toNat, nano⟩)
  else some ⟨date, shifted.toNat, nano⟩

end Instant

end SealedLog
