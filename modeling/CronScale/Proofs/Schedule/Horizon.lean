import CronScale.Proofs.Schedule.Exclusions
/-!
# How far the search reaches

The search for the next time of a recurrence gives up at the end of the fifth year after the one in
which it starts. A month is never longer than in a leap year, and its first seven days are one of
each day of the week; so in a leap year a recurrence has one of its days if it has one at all. From
1970 on until 2096 there is a leap year among any four years in a row, and the search meets one
before it gives up. It finds nothing only if there is nothing to be found, ever
(`nextAfter_eq_none_iff`).

Around 2100, which is no leap year, eight years pass between two leap years. Nothing is said about
searches that start after 2090, nor about zones in which readings are skipped.
-/

namespace CronScale.Calendar

/-- The greatest length that a month has in any year. -/
def longestLength (m : Nat) : Nat := monthLength 2000 m

theorem monthLength_of_leap {y : Int} (h : isLeapYear y = true) (m : Nat) :
    monthLength y m = longestLength m := by
  have hleap : isLeapYear 2000 = true := by decide
  simp only [longestLength, monthLength, monthLengths, h, hleap]

/-- Only the second of the twelve lengths depends on the year. -/
theorem monthLength_of_not_leap {y : Int} (h : isLeapYear y = false) (m : Nat) :
    monthLength y m = monthLength 2001 m := by
  have hnot : isLeapYear 2001 = false := by decide
  simp only [monthLength, monthLengths, h, hnot]

theorem monthLength_eq_zero (y : Int) {m : Nat} (h : 12 < m) : monthLength y m = 0 := by
  have hnone : (monthLengths y)[m - 1]? = none := by
    apply List.getElem?_eq_none
    rw [length_monthLengths]
    omega
  simp only [monthLength, hnone, Option.getD_none, ite_self]

theorem monthLength_le_longest (y : Int) (m : Nat) : monthLength y m ≤ longestLength m := by
  cases hleap : isLeapYear y with
  | true => exact Nat.le_of_eq (monthLength_of_leap hleap m)
  | false =>
    rw [monthLength_of_not_leap hleap]
    by_cases hlast : m ≤ 12
    · revert m
      decide
    · rw [monthLength_eq_zero 2001 (Nat.lt_of_not_le hlast)]
      exact Nat.zero_le _

theorem le_monthLength (y : Int) {m : Nat} (hlast : m ≤ 12) (hfirst : 1 ≤ m) :
    28 ≤ monthLength y m := by
  cases hleap : isLeapYear y with
  | true =>
    rw [monthLength_of_leap hleap]
    revert m
    decide
  | false =>
    rw [monthLength_of_not_leap hleap]
    revert m
    decide

/-- From 1970 on until 2096 every fourth year is a leap year. -/
theorem exists_leapYear {y : Int} (hfrom : 1970 ≤ y) (hto : y ≤ 2092) :
    ∃ l, y < l ∧ l ≤ y + 4 ∧ isLeapYear l = true := by
  refine ⟨4 * (y / 4) + 4, by omega, by omega, ?_⟩
  simp only [isLeapYear, Bool.and_eq_true, Bool.or_eq_true, beq_iff_eq, bne_iff_ne]
  omega

/-- Every day of the week is one of the first seven days of a month. -/
theorem exists_weekday (y : Int) (m : Nat) {weekday : Nat} (h : weekday ≤ 6) :
    ∃ day, 1 ≤ day ∧ day ≤ 7 ∧ Date.weekday ⟨y, m, day⟩ = weekday := by
  generalize hfirst : Date.dayNumber ⟨y, m, 0⟩ = first
  refine ⟨1 + ((weekday - first - 5) % 7).toNat, by omega, by omega, ?_⟩
  have hnumber : Date.dayNumber ⟨y, m, 1 + ((weekday - first - 5) % 7).toNat⟩ =
      first + 1 + (weekday - first - 5) % 7 := by
    simp only [Date.dayNumber] at hfirst ⊢
    omega
  rw [Date.weekday, hnumber, weekdayOf]
  omega

theorem Date.weekday_le (d : Date) : d.weekday ≤ 6 := by
  rw [Date.weekday, weekdayOf]
  omega

namespace Zone

/-- In universal time every reading is shown, and once only. -/
theorem earliest?_utc (r : Reading) : utc.earliest? r = some ⟨r.seconds, r.nanos⟩ := by
  simp [earliest?, utc, fixed, ofOffsets, candidates, Resolution.earliest?]

theorem reading_utc (i : Instant) : utc.reading i = ⟨i.seconds, i.nanos⟩ := by
  simp [reading, utc, fixed, ofOffsets, Instant.reading]

end Zone

end CronScale.Calendar

namespace CronScale.Schedule

open CronScale.Text CronScale.Calendar

/-- The sets of a recurrence that was read are what six tokens denote. -/
theorem spelled_of_parse {expr : String} {r : Recurrence}
    (h : parse expr = .ok (.recurring r)) : ∃ tokens, Spelled tokens r := by
  have hfields : ∀ expr cs, readFields expr cs = .ok (.recurring r) →
      ∃ tokens, Spelled tokens r := by
    intro expr cs hread
    obtain ⟨-, r', hr, hspelled⟩ := readFields_eq_ok hread
    exact ⟨_, Schedule.recurring.inj hr ▸ hspelled⟩
  unfold parse at h
  split at h
  · exact absurd h (by simp)
  · unfold readDescriptor at h
    split at h
    · split at h
      · exact absurd (Except.ok.inj h) (by simp)
      · exact absurd h (by simp)
    · split at h
      · exact hfields _ _ h
      · exact absurd h (by simp)
  · exact hfields _ _ h

namespace Recurrence

variable {r : Recurrence} {tokens : List (List Char)}

/-- Whether a recurrence leaves the day of the week open and none of its months has one of its days
of the month, counting the 29th of February. -/
def Dayless (r : Recurrence) : Prop :=
  r.anyDayOfWeek = true ∧ ∀ m ∈ r.months, ∀ d ∈ r.daysOfMonth, longestLength m < d

theorem Dayless.not_matchesDate (h : r.Dayless) {d : Date} (hd : d.exists? = true) :
    r.matchesDate d = false := by
  rw [Bool.eq_false_iff]
  intro hmatches
  simp only [matchesDate, matchesDay, h.1, Bool.or_true, if_true, Bool.and_eq_true,
    List.contains_iff_mem] at hmatches
  have hlonger := h.2 d.month hmatches.1 d.day hmatches.2.1
  have hday := (Date.exists?_iff.1 hd).2.2.2
  have hlongest := monthLength_le_longest d.year d.month
  omega

theorem Dayless.not_matchesReading (h : r.Dayless) (w : Int) : r.matchesReading w = false := by
  have hdate := h.not_matchesDate (Date.exists_ofDayNumber (Reading.dayNumber ⟨w, 0⟩))
  simp only [matchesReading, Reading.date, hdate, Bool.false_and]

/-- Where the day of the week is open, the day of the month decides, and in a leap year the month is
as long as it ever gets. -/
theorem exists_matchesDate_of_open (hspelled : Spelled tokens r) (hopen : r.anyDayOfWeek = true)
    (hdays : ¬ r.Dayless) {y : Int} (hleap : isLeapYear y = true) :
    ∃ d : Date, d.year = y ∧ d.exists? = true ∧ r.matchesDate d = true := by
  obtain ⟨_, _, _, _, _, _, -, -, -, -, hdom, hmon, hdow⟩ := hspelled
  have hday : ∃ m ∈ r.months, ∃ d ∈ r.daysOfMonth, d ≤ longestLength m := by
    by_contra hnone
    apply hdays
    exact ⟨hopen, fun m hm d hd => Nat.lt_of_not_le fun hle => hnone ⟨m, hm, d, hd, hle⟩⟩
  obtain ⟨m, hm, d, hd, hle⟩ := hday
  have hmonth := hmon.within m hm
  have hweekday := hdow.full hopen (Date.weekday ⟨y, m, d⟩) (Nat.zero_le _) (Date.weekday_le _)
  rw [← monthLength_of_leap hleap] at hle
  refine ⟨⟨y, m, d⟩, rfl, ?_, ?_⟩
  · exact Date.exists?_iff.2 ⟨hmonth.1, hmonth.2, (hdom.within d hd).1, hle⟩
  · simp only [matchesDate, matchesDay, hopen, Bool.or_true, if_true, List.contains_iff_mem.2 hm,
      List.contains_iff_mem.2 hd, List.contains_iff_mem.2 hweekday, Bool.and_self]

/-- Where the day of the week is restricted it is enough, unless the day of the month is open; and
then every day of the month will do. -/
theorem exists_matchesDate_of_weekday (hspelled : Spelled tokens r)
    (hweekly : r.anyDayOfWeek = false) (y : Int) :
    ∃ d : Date, d.year = y ∧ d.exists? = true ∧ r.matchesDate d = true := by
  obtain ⟨_, _, _, _, _, _, -, -, -, -, hdom, hmon, hdow⟩ := hspelled
  obtain ⟨m, hm⟩ := List.exists_mem_of_ne_nil _ hmon.nonempty
  obtain ⟨weekday, hweekday⟩ := List.exists_mem_of_ne_nil _ hdow.nonempty
  obtain ⟨day, hfirst, hlast, hday⟩ := exists_weekday y m (hdow.within weekday hweekday).2
  have hmonth := hmon.within m hm
  have hlength := le_monthLength y hmonth.2 hmonth.1
  rw [← hday] at hweekday
  refine ⟨⟨y, m, day⟩, rfl, ?_, ?_⟩
  · exact Date.exists?_iff.2 ⟨hmonth.1, hmonth.2, hfirst, by simp only; omega⟩
  · simp only [matchesDate, matchesDay, hweekly, Bool.or_false, List.contains_iff_mem.2 hm,
      List.contains_iff_mem.2 hweekday, Bool.true_and, Bool.and_true, Bool.or_true,
      ite_eq_right_iff]
    intro hopen
    exact List.contains_iff_mem.2 (hdom.full hopen day hfirst (Nat.le_trans hlast (by decide)))

/-- A recurrence has one of its days in every leap year, unless it has none at all. -/
theorem exists_matchesDate (hspelled : Spelled tokens r) (hdays : ¬ r.Dayless) {y : Int}
    (hleap : isLeapYear y = true) :
    ∃ d : Date, d.year = y ∧ d.exists? = true ∧ r.matchesDate d = true := by
  cases hopen : r.anyDayOfWeek with
  | true => exact exists_matchesDate_of_open hspelled hopen hdays hleap
  | false => exact exists_matchesDate_of_weekday hspelled hopen y

/-- On each of its days a recurrence has one of its seconds. -/
theorem exists_matchesReading (hspelled : Spelled tokens r) {d : Date} (hexists : d.exists? = true)
    (hmatches : r.matchesDate d = true) :
    ∃ w, Reading.year ⟨w, 0⟩ = d.year ∧ r.matchesReading w = true := by
  obtain ⟨_, _, _, _, _, _, -, hs, hm, hh, -⟩ := hspelled
  obtain ⟨second, hsecond⟩ := List.exists_mem_of_ne_nil _ hs.nonempty
  obtain ⟨minute, hminute⟩ := List.exists_mem_of_ne_nil _ hm.nonempty
  obtain ⟨hour, hhour⟩ := List.exists_mem_of_ne_nil _ hh.nonempty
  have hsecond' : second ≤ 59 := (hs.within second hsecond).2
  have hminute' : minute ≤ 59 := (hm.within minute hminute).2
  have hhour' : hour ≤ 23 := (hh.within hour hhour).2
  generalize hw : d.dayNumber * 86400 + hour * 3600 + minute * 60 + second = w
  have hday : Reading.dayNumber ⟨w, 0⟩ = d.dayNumber := by
    simp only [Reading.dayNumber, secondsPerDay]
    omega
  have hdate : Reading.date ⟨w, 0⟩ = d := by
    rw [Reading.date, hday, Date.ofDayNumber_dayNumber hexists]
  have htime : Reading.secondOfDay ⟨w, 0⟩ = hour * 3600 + minute * 60 + second := by
    simp only [Reading.secondOfDay, secondsPerDay]
    omega
  refine ⟨w, ?_, ?_⟩
  · rw [Reading.year, ← Date.year_ofDayNumber, ← Reading.date, hdate]
  · have hhours : (hour * 3600 + minute * 60 + second) / 3600 = hour := by omega
    have hminutes : (hour * 3600 + minute * 60 + second) / 60 % 60 = minute := by omega
    have hseconds : (hour * 3600 + minute * 60 + second) % 60 = second := by omega
    simp only [matchesReading, hdate, hmatches, htime, hhours, hminutes, hseconds,
      List.contains_iff_mem.2 hhour, List.contains_iff_mem.2 hminute,
      List.contains_iff_mem.2 hsecond, Bool.and_self]

/-- In the years that follow a year before 2092 a recurrence has one of its seconds before the fifth
of them is over, unless it has no days at all. -/
theorem exists_second_within (hspelled : Spelled tokens r) (hdays : ¬ r.Dayless) {y : Int}
    (hfrom : 1970 ≤ y) (hto : y ≤ 2092) :
    ∃ w, endOfYear y ≤ w ∧ w < endOfYear (y + 5) ∧ r.matchesReading w = true := by
  obtain ⟨l, hafter, hbefore, hleap⟩ := exists_leapYear hfrom hto
  obtain ⟨d, rfl, hexists, hmatches⟩ := exists_matchesDate hspelled hdays hleap
  obtain ⟨w, hyear, hmatches⟩ := exists_matchesReading hspelled hexists hmatches
  refine ⟨w, ?_, ?_, hmatches⟩
  · apply Int.le_of_not_gt
    intro hearly
    have hle := year_le_iff.2 hearly
    omega
  · apply year_le_iff.1
    omega

/-- The second after an instant is in the year of the instant or begins the next one. -/
theorem year_of_start {after : Instant} (hfrom : 1970 ≤ (Zone.utc.reading after).year)
    (hto : (Zone.utc.reading after).year ≤ 2090) :
    1970 ≤ Reading.year ⟨after.seconds + 1, 0⟩ ∧ Reading.year ⟨after.seconds + 1, 0⟩ ≤ 2091 := by
  rw [Zone.reading_utc] at hfrom hto
  have hyear : Reading.year ⟨after.seconds, after.nanos⟩ = Reading.year ⟨after.seconds, 0⟩ := rfl
  have hlow : ¬ after.seconds < endOfYear 1969 := by
    rw [← year_le_iff]
    omega
  have hhigh : after.seconds < endOfYear 2090 := year_le_iff.1 (hyear ▸ hto)
  constructor
  · apply Int.le_of_not_gt
    intro hearly
    have hle := year_le_iff.1 (show Reading.year ⟨after.seconds + 1, 0⟩ ≤ 1969 by omega)
    omega
  · apply year_le_iff.2
    have hlonger : endOfYear 2090 + 1 ≤ endOfYear 2091 := by decide
    omega

/-- From an instant in the years 1970 to 2090 the search in universal time finds nothing exactly if
the day of the week is left open and none of the months has one of the days of the month, the 29th
of February included; and this is so exactly if no second of any year is one of the seconds of the
recurrence. -/
theorem nextAfter_eq_none_iff {expr : String} (hparse : parse expr = .ok (.recurring r))
    {after : Instant} (hfrom : 1970 ≤ (Zone.utc.reading after).year)
    (hto : (Zone.utc.reading after).year ≤ 2090) :
    (r.nextAfter Zone.utc after = none ↔
      r.anyDayOfWeek = true ∧ ∀ m ∈ r.months, ∀ d ∈ r.daysOfMonth, longestLength m < d) ∧
    ((∀ w, r.matchesReading w = false) ↔
      r.anyDayOfWeek = true ∧ ∀ m ∈ r.months, ∀ d ∈ r.daysOfMonth, longestLength m < d) := by
  obtain ⟨tokens, hspelled⟩ := spelled_of_parse hparse
  obtain ⟨hfirst, hlast⟩ := year_of_start hfrom hto
  have hscan := nextAfter_eq_scan r Zone.utc after
  simp only [Zone.reading_utc] at hscan
  have hfound : ¬ r.Dayless → ∃ w, after.seconds + 1 ≤ w ∧
      w < endOfYear (Reading.year ⟨after.seconds + 1, 0⟩ + 5) ∧ r.matchesReading w = true := by
    intro hdays
    obtain ⟨w, hafter, hbefore, hmatches⟩ :=
      exists_second_within hspelled hdays hfirst (Int.le_trans hlast (by decide))
    have hstart := year_le_iff.1 (Int.le_refl (Reading.year ⟨after.seconds + 1, 0⟩))
    exact ⟨w, by omega, hbefore, hmatches⟩
  constructor
  · rw [hscan]
    constructor
    · intro hnone
      by_contra hdays
      obtain ⟨w, hafter, hbefore, hmatches⟩ := hfound hdays
      have hlt : after < ⟨w, 0⟩ := Instant.lt_iff.2 (.inl (by simp only; omega))
      have hread : readingAfter? Zone.utc after w = some ⟨w, 0⟩ :=
        readingAfter?_eq_some.2 ⟨Zone.earliest?_utc ⟨w, 0⟩, hlt⟩
      exact scan_ne_none (mem_secondsFrom.2 ⟨hafter, hbefore⟩) hmatches hread hnone
    · intro hdayless
      rw [scan, List.filter_eq_nil_iff.2, List.findSome?_nil]
      intro w _
      simp only [Dayless.not_matchesReading hdayless w, Bool.false_eq_true, not_false_eq_true]
  · constructor
    · intro hnever
      by_contra hdays
      obtain ⟨w, -, -, hmatches⟩ := hfound hdays
      exact absurd (hmatches.symm.trans (hnever w)) (by decide)
    · exact Dayless.not_matchesReading

/-- The midnights at which a day of February begins. -/
def midnightInFebruary (day : Nat) : Recurrence :=
  { seconds := [0], minutes := [0], hours := [0], daysOfMonth := [day], months := [2]
    daysOfWeek := List.range 7, anyDayOfMonth := false, anyDayOfWeek := true }

/-- Nothing is found for 30 February, but even in the last moment of 2090 something is found for the
29th. -/
theorem leapDay_found :
    (midnightInFebruary 30).nextAfter Zone.utc ⟨1715767200, 0⟩ = none ∧
      (midnightInFebruary 29).nextAfter Zone.utc ⟨3818447999, 999999999⟩ ≠ none := by
  have hthirtieth : parse "0 0 0 30 2 *" = .ok (.recurring (midnightInFebruary 30)) :=
    eq_ok_of_toOption (by decide +kernel)
  have hleapDay : parse "0 0 0 29 FEB ?" = .ok (.recurring (midnightInFebruary 29)) :=
    eq_ok_of_toOption (by decide +kernel)
  constructor
  · exact (nextAfter_eq_none_iff hthirtieth (by decide +kernel) (by decide +kernel)).1.2 (by decide)
  · rw [Ne, (nextAfter_eq_none_iff hleapDay (by decide +kernel) (by decide +kernel)).1]
    decide

end Recurrence

end CronScale.Schedule
