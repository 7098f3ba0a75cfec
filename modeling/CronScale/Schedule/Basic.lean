import CronScale.Calendar.Instant
import CronScale.Schedule.Field
/-!
# Schedules

A schedule either recurs, on the wall-clock seconds whose parts lie in six sets, or names one single
reading of the clock. Of the two sets of days it is enough to satisfy one when both are
restricted; otherwise both have to be satisfied.
-/

namespace CronScale.Schedule

open CronScale.Calendar

/-- The seconds at which something recurs: six sets of values, each in ascending order, and whether
either kind of day is unrestricted. -/
structure Recurrence where
  seconds : List Nat
  minutes : List Nat
  hours : List Nat
  daysOfMonth : List Nat
  months : List Nat
  daysOfWeek : List Nat
  anyDayOfMonth : Bool
  anyDayOfWeek : Bool
  deriving DecidableEq, Repr

end CronScale.Schedule

namespace CronScale

open CronScale.Calendar CronScale.Schedule

/-- When something happens: again and again, or once. -/
inductive Schedule where
  | recurring (r : Recurrence)
  | once (reading : Reading)
  deriving DecidableEq, Repr

/-- Whether a schedule names a single reading of the clock. -/
def Schedule.isOneShot : Schedule → Bool
  | .recurring _ => false
  | .once _ => true

namespace Schedule.Recurrence

/-- Whether both kinds of day, or one of them where both are restricted, allow a date. -/
def matchesDay (r : Recurrence) (dayOfMonth dayOfWeek : Nat) : Bool :=
  let dom := r.daysOfMonth.contains dayOfMonth
  let dow := r.daysOfWeek.contains dayOfWeek
  if r.anyDayOfMonth || r.anyDayOfWeek then dom && dow else dom || dow

/-- Whether a date is one of the days of a recurrence. -/
def matchesDate (r : Recurrence) (d : Date) : Bool :=
  r.months.contains d.month && r.matchesDay d.day d.weekday

/-- Whether a second of the wall clock, counted from the start of 1970, is one of the seconds of a
recurrence. -/
def matchesReading (r : Recurrence) (w : Int) : Bool :=
  let reading : Reading := ⟨w, 0⟩
  let s := reading.secondOfDay
  r.matchesDate reading.date && r.hours.contains (s / 3600) &&
    r.minutes.contains (s / 60 % 60) && r.seconds.contains (s % 60)

end Schedule.Recurrence

end CronScale
