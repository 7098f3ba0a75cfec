import CronScale.Calendar.Date
import CronScale.Text.Numeral
/-!
# Instants and wall-clock readings

An instant is a point in universal time, a reading what a clock on a wall shows. Both count whole
seconds from the start of 1970 and carry a part below a second in billionths. That part may reach
beyond a full second: then it lies in a leap second, shown as the sixtieth second of its minute. The
order is by seconds first, so that a leap second comes before the minute that follows it.
-/

namespace CronScale.Calendar

open CronScale.Text

/-- A point in universal time. -/
structure Instant where
  seconds : Int
  nanos : Nat
  deriving DecidableEq, Repr, Inhabited

/-- What a wall clock shows. -/
structure Reading where
  seconds : Int
  nanos : Nat
  deriving DecidableEq, Repr, Inhabited

def nanosPerSecond : Nat := 1000000000

def secondsPerDay : Int := 86400

/-- A number of milliseconds in billionths of a second. -/
def inNanos (ms : Int) : Int := ms * 1000000

/-- The first full millisecond that is not before a time in billionths of a second. -/
def fullMillis (n : Int) : Int := (n + 999999) / 1000000

namespace Instant

/-- Earlier instants are smaller; those within one second are ordered by the part below it. -/
def before (a b : Instant) : Bool :=
  a.seconds < b.seconds || (a.seconds == b.seconds && a.nanos < b.nanos)

instance : LT Instant := ⟨fun a b => a.before b = true⟩
instance : LE Instant := ⟨fun a b => b.before a = false⟩
instance (a b : Instant) : Decidable (a < b) := inferInstanceAs (Decidable (_ = true))
instance (a b : Instant) : Decidable (a ≤ b) := inferInstanceAs (Decidable (_ = false))

/-- The instant a number of milliseconds after the start of 1970. -/
def ofMillis (ms : Int) : Instant := ⟨ms / 1000, (ms % 1000).toNat * 1000000⟩

/-- The instant a number of billionths of a second after the start of 1970. -/
def ofNanos (n : Int) : Instant := ⟨n / nanosPerSecond, (n % nanosPerSecond).toNat⟩

def earlier (a b : Instant) : Instant := if b < a then b else a

/-- The billionths from `b` to `a`. Within a day a leap second counts as a second of its own;
between days every day has 86400 seconds. -/
def since (a b : Instant) : Int :=
  let dayA := a.seconds % secondsPerDay
  let dayB := b.seconds % secondsPerDay
  let leap : Int :=
    if dayB < dayA then (if nanosPerSecond ≤ b.nanos then 1 else 0)
    else if dayA < dayB then (if nanosPerSecond ≤ a.nanos then -1 else 0)
    else 0
  (a.seconds - b.seconds + leap) * nanosPerSecond + (a.nanos - b.nanos : Int)

end Instant

/-- A year with at least four digits, signed unless it has exactly four and is not negative. -/
def yearText (y : Int) : String :=
  if 0 ≤ y ∧ y ≤ 9999 then padded 4 y.toNat
  else (if y < 0 then "-" else "+") ++ padded 4 y.natAbs

/-- A fraction of a second: nothing, or a point and 3, 6 or 9 digits, as few as are exact. -/
def fractionText (nanos : Nat) : String :=
  if nanos = 0 then ""
  else if nanos % 1000000 = 0 then "." ++ padded 3 (nanos / 1000000)
  else if nanos % 1000 = 0 then "." ++ padded 6 (nanos / 1000)
  else "." ++ padded 9 nanos

/-- The distance of a zone from universal time, as sign, hours and minutes. -/
def offsetText (offset : Int) : String :=
  let minutes := (offset.natAbs + 30) / 60
  (if offset < 0 then "-" else "+") ++ padded 2 (minutes / 60) ++ ":" ++ padded 2 (minutes % 60)

namespace Reading

/-- The day number of the day that the clock shows. -/
def dayNumber (r : Reading) : Int := r.seconds / secondsPerDay

def secondOfDay (r : Reading) : Nat := (r.seconds % secondsPerDay).toNat

def date (r : Reading) : Date := Date.ofDayNumber r.dayNumber

def year (r : Reading) : Int := (yearAndDay r.dayNumber).1

/-- The reading at a time of a day; the sixtieth second is a leap second. -/
def ofDate (d : Date) (hour minute second : Nat) : Reading :=
  let base := d.dayNumber * secondsPerDay + hour * 3600 + minute * 60
  if second = 60 then ⟨base + 59, nanosPerSecond⟩ else ⟨base + second, 0⟩

/-- A reading as date, `T` and time of day. -/
def text (r : Reading) : String :=
  let d := r.date
  let s := r.secondOfDay
  let leap := nanosPerSecond ≤ r.nanos
  yearText d.year ++ "-" ++ padded 2 d.month ++ "-" ++ padded 2 d.day ++ "T" ++
    padded 2 (s / 3600) ++ ":" ++ padded 2 (s / 60 % 60) ++ ":" ++
    padded 2 (s % 60 + if leap then 1 else 0) ++
    fractionText (if leap then r.nanos - nanosPerSecond else r.nanos)

end Reading

/-- The reading of a clock that stands at `offset` seconds from universal time. -/
def Instant.reading (i : Instant) (offset : Int) : Reading := ⟨i.seconds + offset, i.nanos⟩

/-- The readings shown with their distance from universal time. -/
def Instant.textAt (i : Instant) (offset : Int) : String :=
  (i.reading offset).text ++ offsetText offset

/-- The time of an instant in universal time, with six digits below the second and a `Z`. -/
def Instant.microText (i : Instant) : String :=
  let r : Reading := ⟨i.seconds, 0⟩
  r.text ++ "." ++ padded 6 (i.nanos / 1000) ++ "Z"

example : (⟨0, 500000000⟩ : Instant).textAt 28800 = "1970-01-01T08:00:00.500+08:00" := by
  decide +kernel
example : (Reading.ofDate ⟨-24, 6, 30⟩ 23 59 60).text = "-0024-06-30T23:59:60" := by
  decide +kernel

end CronScale.Calendar
