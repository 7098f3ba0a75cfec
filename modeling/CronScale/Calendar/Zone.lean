import CronScale.Calendar.Instant
/-!
# Time zones

A zone says how far a wall clock in it stands from universal time at each instant, and at which
instants the clock shows a given reading: at none where the clocks are put forward, at one as a rule
and at two where they are put back. Both directions speak of whole seconds; the part below a second
passes through unchanged. `mem_of_resolve` says that the instants named for a reading do show it.

The rules for the change to summer time are those in force in 2024, applied to all years up to 2099;
what holds at the end of that year holds ever after.
-/

namespace CronScale.Calendar

/-- The instants at which a wall clock shows a reading. -/
inductive Resolution where
  | skipped
  | unique (time : Int)
  | repeated (earlier later : Int)
  deriving DecidableEq, Repr

/-- The first instant at which a reading is shown. -/
def Resolution.earliest? : Resolution → Option Int
  | .skipped => none
  | .unique t => some t
  | .repeated t _ => some t

/-- A time zone. -/
structure Zone where
  name : String
  /-- The distance from universal time, in seconds, at an instant. -/
  offsetAt : Int → Int
  /-- The instants at which the clock shows a reading. -/
  resolve : Int → Resolution

instance : Inhabited Zone := ⟨"", fun _ => 0, fun w => .unique w⟩

namespace Zone

def reading (z : Zone) (i : Instant) : Reading := i.reading (z.offsetAt i.seconds)

/-- The first instant at which the clock shows a reading. -/
def earliest? (z : Zone) (r : Reading) : Option Instant :=
  (z.resolve r.seconds).earliest?.map fun t => ⟨t, r.nanos⟩

/-- The day number that the clock shows at an instant. -/
def dayAt (z : Zone) (i : Instant) : Int := (z.reading i).dayNumber

/-- An instant as the clock shows it, with the distance from universal time. -/
def text (z : Zone) (i : Instant) : String := i.textAt (z.offsetAt i.seconds)

/-- The instants, among those that the given distances lead to, at which the clock shows a
reading. -/
def candidates (offsets : List Int) (offsetAt : Int → Int) (w : Int) : List Int :=
  (offsets.filter fun o => offsetAt (w - o) == o).map (w - ·)

/-- The zone whose clocks stand at one of the given distances, the greatest first. -/
def ofOffsets (name : String) (offsets : List Int) (offsetAt : Int → Int) : Zone where
  name := name
  offsetAt := offsetAt
  resolve w :=
    match candidates offsets offsetAt w with
    | [] => .skipped
    | [t] => .unique t
    | t :: t' :: _ => .repeated t t'

def fixed (name : String) (offset : Int) : Zone := ofOffsets name [offset] fun _ => offset

/-- The day number of the n-th Sunday of a month, counted from zero. -/
def sunday (y : Int) (m : Nat) (n : Int) : Int :=
  weekdayFrom (Date.dayNumber ⟨y, m, 1⟩) 0 + 7 * n

/-- The day number of the last Sunday of a month. -/
def lastSunday (y : Int) (m : Nat) : Int :=
  weekdayUpTo (Date.dayNumber ⟨y, m, monthLength y m⟩) 0

/-- When clocks are put forward in a year and when back, in seconds of universal time. -/
structure SummerTime where
  starts : Int → Int
  ends : Int → Int

/-- The last year in which clocks are changed. -/
def lastYearOfChange : Int := 2099

/-- Whether it is summer time at an instant; in the south summer spans the turn of the year. -/
def SummerTime.covers (s : SummerTime) (t : Int) : Bool :=
  let y := (yearAndDay (t / secondsPerDay)).1
  if lastYearOfChange < y then s.ends lastYearOfChange < s.starts lastYearOfChange
  else if s.starts y ≤ s.ends y then s.starts y ≤ t && t < s.ends y
  else t < s.ends y || s.starts y ≤ t

/-- A zone with summer time. -/
def seasonal (name : String) (standard summer : Int) (s : SummerTime) : Zone :=
  ofOffsets name [summer, standard] fun t => if s.covers t then summer else standard

def hours (h : Int) : Int := h * 3600

/-- An hour of a day in seconds of universal time. -/
def onDay (n : Int) (seconds : Int) : Int := n * secondsPerDay + seconds

/-- From the last Sunday of March to the last Sunday of October, at one o'clock universal time. -/
def europeanSummer : SummerTime where
  starts y := onDay (lastSunday y 3) (hours 1)
  ends y := onDay (lastSunday y 10) (hours 1)

/-- From the second Sunday of March to the first Sunday of November, at two o'clock local time in
a zone five hours behind universal time. -/
def easternSummer : SummerTime where
  starts y := onDay (sunday y 3 1) (hours 7)
  ends y := onDay (sunday y 11 0) (hours 6)

/-- From the first Sunday of October to the first Sunday of April, at two o'clock local time in a
zone ten and a half hours ahead of universal time, eleven in summer. -/
def lordHoweSummer : SummerTime where
  starts y := onDay (sunday y 10 0) (hours 2 - 37800)
  ends y := onDay (sunday y 4 0) (hours 2 - hours 11)

/-- The start of an hour of a date, in seconds of universal time. -/
def hourOf (y : Int) (m d : Nat) (h : Int) : Int := onDay (Date.dayNumber ⟨y, m, d⟩) (hours h)

/-- Three hours behind; two in the summers from 2017 to 2019. -/
def saoPauloOffset (t : Int) : Int :=
  if (hourOf 2017 10 15 3 ≤ t ∧ t < hourOf 2018 2 18 2) ∨
      (hourOf 2018 11 4 3 ≤ t ∧ t < hourOf 2019 2 17 2) then hours (-2)
  else hours (-3)

/-- Ten hours behind up to the end of 29 December 2011, then fourteen ahead in summer and thirteen
in winter; no summer time after April 2021. -/
def apiaOffset (t : Int) : Int :=
  let y := (yearAndDay (t / secondsPerDay)).1
  if t < hourOf 2011 12 30 10 then hours (-10)
  else if 2021 < y then hours 13
  else if y ≤ 2011 ∨ t < onDay (sunday y 4 0) (hours 4 - hours 14) then hours 14
  else if y < 2021 ∧ onDay (lastSunday y 9) (hours 3 - hours 13) ≤ t then hours 14
  else hours 13

def utc : Zone := fixed "UTC" 0

def known : List Zone :=
  [utc, fixed "GMT" 0, fixed "Etc/UTC" 0, fixed "Asia/Tokyo" (hours 9),
    fixed "Asia/Shanghai" (hours 8), fixed "Asia/Kolkata" (hours 5 + 1800),
    seasonal "Europe/Berlin" (hours 1) (hours 2) europeanSummer,
    seasonal "America/New_York" (hours (-5)) (hours (-4)) easternSummer,
    seasonal "Australia/Lord_Howe" 37800 (hours 11) lordHoweSummer,
    ofOffsets "America/Sao_Paulo" [hours (-2), hours (-3)] saoPauloOffset,
    ofOffsets "Pacific/Apia" [hours 14, hours 13, hours (-10)] apiaOffset]

def find? (name : String) : Option Zone := known.find? (·.name == name)

theorem offsetAt_of_mem_candidates {offsets : List Int} {offsetAt : Int → Int} {w t : Int}
    (h : t ∈ candidates offsets offsetAt w) : t + offsetAt t = w := by
  obtain ⟨o, ho, rfl⟩ := List.mem_map.1 h
  have := (List.mem_filter.1 ho).2
  simp only [beq_iff_eq] at this
  omega

/-- The first instant named for a reading is one at which the clock shows it. -/
theorem mem_of_resolve {name : String} {offsets : List Int} {offsetAt : Int → Int} {w t : Int}
    (h : ((ofOffsets name offsets offsetAt).resolve w).earliest? = some t) :
    t + offsetAt t = w := by
  apply @offsetAt_of_mem_candidates offsets
  unfold ofOffsets Resolution.earliest? at h
  simp only at h
  split at h <;> split at * <;> simp_all

end Zone

end CronScale.Calendar
