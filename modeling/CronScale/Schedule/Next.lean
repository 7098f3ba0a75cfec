import CronScale.Calendar.DayNumber
import CronScale.Calendar.Zone
import CronScale.Schedule.Basic
/-!
# The next time of a schedule

The next time of a recurrence after an instant is sought on the wall clock, from the second after
the one that the clock shows up to the end of the fifth year after that. A second whose month is not
one of the months of the recurrence sends the search on to the next month; in the same way a day
that is not one of its days sends it on to the next day, and so on down to single seconds. A second
of the wall clock counts only if it exists in the zone and is read for the first time after the
instant from which the search started. Every jump goes forward (`lt_of_skip?`), so the search ends.
-/

namespace CronScale.Schedule

open CronScale.Calendar

/-- How many years beyond the first one are searched. -/
def horizonYears : Int := 5

/-- The first instant at which the clock shows a whole second, if that is after `after`. -/
def readingAfter? (z : Zone) (after : Instant) (w : Int) : Option Instant :=
  match z.earliest? ⟨w, 0⟩ with
  | some t => if after < t then some t else none
  | none => none

/-- The second at which the month after that of a second begins. -/
def monthAfter (w : Int) : Int :=
  (Reading.date ⟨w, 0⟩).firstOfNextMonth.dayNumber * secondsPerDay

/-- The second at which the day after that of a second begins. -/
def dayAfter (w : Int) : Int := (w / secondsPerDay + 1) * secondsPerDay

/-- The second at which the hour after that of a second begins. -/
def hourAfter (w : Int) : Int := (w / 3600 + 1) * 3600

/-- The second at which the minute after that of a second begins. -/
def minuteAfter (w : Int) : Int := (w / 60 + 1) * 60

/-- The first second after a year. -/
def endOfYear (y : Int) : Int := (Date.dayNumber ⟨y, 12, 31⟩ + 1) * secondsPerDay

theorem year_le_iff {w y : Int} : Reading.year ⟨w, 0⟩ ≤ y ↔ w < endOfYear y := by
  rw [Reading.year, ← Date.year_ofDayNumber, Date.year_le_iff]
  simp only [Reading.dayNumber, endOfYear, secondsPerDay]
  omega

theorem lt_monthAfter (w : Int) : w < monthAfter w := by
  have := Date.lt_dayNumber_firstOfNextMonth (w / 86400)
  simp only [monthAfter, Reading.date, Reading.dayNumber, secondsPerDay]
  omega

namespace Recurrence

/-- Where the search goes on from a second that is not one of the seconds of a recurrence; nothing
for one that is. -/
def skip? (r : Recurrence) (w : Int) : Option Int :=
  let reading : Reading := ⟨w, 0⟩
  let d := reading.date
  let s := reading.secondOfDay
  if !r.months.contains d.month then some (monthAfter w)
  else if !r.matchesDay d.day d.weekday then some (dayAfter w)
  else if !r.hours.contains (s / 3600) then some (hourAfter w)
  else if !r.minutes.contains (s / 60 % 60) then some (minuteAfter w)
  else if !r.seconds.contains (s % 60) then some (w + 1)
  else none

theorem lt_of_skip? {r : Recurrence} {w w' : Int} (h : r.skip? w = some w') : w < w' := by
  simp only [skip?] at h
  split at h
  · exact Option.some.inj h ▸ lt_monthAfter w
  split at h
  · obtain rfl := Option.some.inj h
    unfold dayAfter secondsPerDay
    omega
  split at h
  · obtain rfl := Option.some.inj h
    unfold hourAfter
    omega
  split at h
  · obtain rfl := Option.some.inj h
    unfold minuteAfter
    omega
  split at h
  · obtain rfl := Option.some.inj h
    omega
  · exact absurd h (Option.some_ne_none w').symm

/-- The first second that counts, from a second on up to the end of a year. -/
def search (r : Recurrence) (z : Zone) (after : Instant) (lastYear w : Int) : Option Instant :=
  if _hyear : Reading.year ⟨w, 0⟩ ≤ lastYear then
    match _hskip : r.skip? w with
    | some w' => r.search z after lastYear w'
    | none =>
      match readingAfter? z after w with
      | some t => some t
      | none => r.search z after lastYear (w + 1)
  else none
termination_by (endOfYear lastYear - w).toNat
decreasing_by
  all_goals have := year_le_iff.1 _hyear
  · have := lt_of_skip? _hskip
    omega
  · omega

/-- The next time after an instant. -/
def nextAfter (r : Recurrence) (z : Zone) (after : Instant) : Option Instant :=
  let start := (z.reading after).seconds + 1
  r.search z after (Reading.year ⟨start, 0⟩ + horizonYears) start

end Recurrence

/-- The first time after an instant at which a schedule is due, on the clocks of a zone. -/
def nextAfter (s : Schedule) (z : Zone) (after : Instant) : Option Instant :=
  match s with
  | .recurring r => r.nextAfter z after
  | .once reading =>
    match z.earliest? reading with
    | some t => if after < t then some t else none
    | none => none

end CronScale.Schedule
