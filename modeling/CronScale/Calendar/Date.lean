/-!
# Dates

A date of the Gregorian calendar, carried on into all years before and after its introduction, is
the same thing as its day number: the number of days from 1 January 1970 on. The calendar repeats
itself every 400 years, and a day number is resolved into centuries, groups of four years and
single years within such a cycle. No statement about dates that were written in another calendar is
intended.
-/

namespace CronScale.Calendar

/-- A day, month and year, not necessarily one that exists. -/
structure Date where
  year : Int
  month : Nat
  day : Nat
  deriving DecidableEq, Repr, Inhabited

/-- Whether a year has a 29th of February. -/
def isLeapYear (y : Int) : Bool := y % 4 == 0 && (y % 100 != 0 || y % 400 == 0)

def monthLengths (y : Int) : List Nat :=
  [31, if isLeapYear y then 29 else 28, 31, 30, 31, 30, 31, 31, 30, 31, 30, 31]

/-- The length of a month, counted from one; zero if there is no such month. -/
def monthLength (y : Int) (m : Nat) : Nat :=
  if m = 0 then 0 else ((monthLengths y)[m - 1]?).getD 0

def Date.exists? (d : Date) : Bool :=
  1 ≤ d.month && d.month ≤ 12 && 1 ≤ d.day && d.day ≤ monthLength d.year d.month

/-- The days from 1 January of year 1 to 1 January of a year. -/
def daysBeforeYear (y : Int) : Int := 365 * (y - 1) + (y - 1) / 4 - (y - 1) / 100 + (y - 1) / 400

def daysBeforeMonth (y : Int) (m : Nat) : Nat := ((monthLengths y).take (m - 1)).foldl (· + ·) 0

/-- The day number of 1 January of year 1, with the sign turned. -/
def epochOffset : Int := 719162

/-- The number of days from 1 January 1970 on. -/
def Date.dayNumber (d : Date) : Int :=
  daysBeforeYear d.year + daysBeforeMonth d.year d.month + d.day - 1 - epochOffset

/-- Finds the month and the day in it, given the lengths of the months still to come. -/
def monthAndDay : List Nat → Nat → Nat → Nat × Nat
  | [], m, n => (m, n + 1)
  | l :: ls, m, n => if n < l then (m, n + 1) else monthAndDay ls (m + 1) (n - l)

/-- The year that holds a day number, and how many of its days come before. -/
def yearAndDay (n : Int) : Int × Nat :=
  let z := n + epochOffset
  let cycle := z / 146097
  let inCycle := (z % 146097).toNat
  let century := min 3 (inCycle / 36524)
  let inCentury := inCycle - century * 36524
  let group := inCentury / 1461
  let inGroup := inCentury - group * 1461
  let single := min 3 (inGroup / 365)
  (cycle * 400 + century * 100 + group * 4 + single + 1, inGroup - single * 365)

def Date.ofDayNumber (n : Int) : Date :=
  let (y, k) := yearAndDay n
  let (m, d) := monthAndDay (monthLengths y) 1 k
  ⟨y, m, d⟩

/-- The day of the week of a day number, from Sunday (zero) to Saturday (six). -/
def weekdayOf (n : Int) : Nat := ((n + 4) % 7).toNat

/-- The day of the week, from Sunday (zero) to Saturday (six). -/
def Date.weekday (d : Date) : Nat := weekdayOf d.dayNumber

/-- The day number of the first day from `n` on that is the given day of the week. -/
def weekdayFrom (n : Int) (w : Nat) : Int := n + (w - n - 4) % 7

/-- The day number of the last day up to `n` that is the given day of the week. -/
def weekdayUpTo (n : Int) (w : Nat) : Int := weekdayFrom (n - 6) w

example : Date.ofDayNumber 0 = ⟨1970, 1, 1⟩ := by decide
example : Date.ofDayNumber (-719528) = ⟨0, 1, 1⟩ := by decide
example : (⟨2024, 2, 29⟩ : Date).dayNumber = 19782 := by decide
example : Date.ofDayNumber 19782 = ⟨2024, 2, 29⟩ := by decide
example : (⟨2024, 3, 10⟩ : Date).weekday = 0 := by decide

end CronScale.Calendar
