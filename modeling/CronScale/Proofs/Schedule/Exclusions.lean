import CronScale.Proofs.Schedule.Clocks
import CronScale.Proofs.Schedule.Expressions
import CronScale.Scaling.Execution
/-!
# What excludes a day

An exclusion is decided by a search for the next time of an expression, which may go on for years,
while the question is about one day. The readings that are left of the day come first in the search,
so that it stays on the day exactly if one of them counts (`Recurrence.nextAfter_today`); how far it
could go on plays no part.

A reading counts only if it is shown for the first time after the instant asked about. An expression
that takes in every second of its days therefore excludes the rest of a day as long as the clock
still comes to a reading of the day that it has not shown (`wholeDay_excluded`). Where clocks are
put back over midnight, the end of the day is shown twice, and the second time nothing is left to
exclude it (`secondPass_not_excluded`).
-/

namespace CronScale.Calendar

theorem Reading.date_eq_of_dayNumber {a b : Reading} (h : a.dayNumber = b.dayNumber) :
    a.date = b.date :=
  congrArg Date.ofDayNumber h

theorem Reading.year_eq_of_dayNumber {a b : Reading} (h : a.dayNumber = b.dayNumber) :
    a.year = b.year :=
  congrArg (fun n => (yearAndDay n).1) h

/-- Between two readings of one day the clock shows that day. -/
theorem Reading.dayNumber_between {a b : Reading} {w : Int} (ha : a.seconds ≤ w)
    (hb : w ≤ b.seconds) (h : a.dayNumber = b.dayNumber) :
    Reading.dayNumber ⟨w, 0⟩ = a.dayNumber := by
  simp only [dayNumber, secondsPerDay] at h ⊢
  omega

namespace Zone

variable {z : Zone}

/-- Whether the clock shows a reading at the instant that is named first for it. A time that carries
along the distance at which it was found shows its reading by itself; for an instant, which is only
a point in time, it is the zone that has to say the same in both directions. -/
def Faithful (z : Zone) : Prop := ∀ w t, (z.resolve w).earliest? = some t → z.localAt t = w

theorem faithful_ofOffsets (name : String) (offsets : List Int) (offsetAt : Int → Int) :
    (ofOffsets name offsets offsetAt).Faithful :=
  fun _ _ h => mem_of_resolve h

theorem Regular.faithful (hz : z.Regular) : z.Faithful :=
  fun _ _ h => (hz.earliest?_eq_some_iff.1 h).1

/-- All zones that are known by their names are faithful. -/
theorem faithful_of_known (h : z ∈ known) : z.Faithful := by
  simp only [known, utc, fixed, seasonal, List.mem_cons, List.not_mem_nil, or_false] at h
  rcases h with rfl | rfl | rfl | rfl | rfl | rfl | rfl | rfl | rfl | rfl | rfl <;>
    exact faithful_ofOffsets _ _ _

/-- The day shown at the instant that is named for a reading is the day of the reading. -/
theorem Faithful.dayAt (hz : z.Faithful) {r : Reading} {t : Instant} (h : z.earliest? r = some t) :
    z.dayAt t = r.dayNumber := by
  obtain ⟨s, hs, rfl⟩ := Option.map_eq_some_iff.1 h
  have hshown : s + z.offsetAt s = r.seconds := hz _ _ hs
  simp only [Zone.dayAt, Zone.reading, Instant.reading, Reading.dayNumber, hshown]

/-- Whether the clock, on the day that it shows at an instant, still comes to a later reading, and
to that for the first time. -/
def GoesOn (z : Zone) (now : Instant) : Prop :=
  ∃ w, (z.reading now).seconds < w ∧ Reading.dayNumber ⟨w, 0⟩ = z.dayAt now ∧
    ∃ t, z.earliest? ⟨w, 0⟩ = some t ∧ now < t

/-- In a regular zone what counts of the rest of a day are the seconds at which the clock shows
something for the first time. -/
theorem Regular.goesOn_iff (hz : z.Regular) {now : Instant} :
    z.GoesOn now ↔
      ∃ t : Int, now < ⟨t, 0⟩ ∧ z.dayAt ⟨t, 0⟩ = z.dayAt now ∧ z.First t := by
  constructor
  · rintro ⟨w, _, hday, t, ht, hlt⟩
    obtain ⟨s, hs, rfl⟩ := Option.map_eq_some_iff.1 ht
    exact ⟨s, hlt, (hz.faithful.dayAt ht).trans hday, (hz.earliest?_eq_some_iff.1 hs).2⟩
  · rintro ⟨t, hlt, hday, hfirst⟩
    have hseconds : now.seconds < t := by
      simpa only [Instant.lt_iff, Nat.not_lt_zero, and_false, or_false] using hlt
    refine ⟨z.localAt t, hz.localAt_lt_of_first hfirst hseconds, hday, ⟨t, 0⟩, ?_, hlt⟩
    exact Option.map_eq_some_iff.2 ⟨t, hz.earliest?_eq_some_iff.2 ⟨rfl, hfirst⟩, rfl⟩

end Zone

end CronScale.Calendar

namespace CronScale

open CronScale.Calendar CronScale.Text

theorem Job.execute_of_none (j : Job) {s : ExecutionSettings} {now : Int}
    (h : Schedule.excludedBy j.excludeDates s.zone (Instant.ofMillis now) = none) :
    j.execute s now = .attempting now 0 j.attempt := by
  simp only [Job.execute, h]

namespace Schedule

variable {z : Zone} {now : Instant} {expr : String}

/-- Whether a schedule has an occurrence to come on the day that the clock shows: a second of the
day later than the one that is shown, or the reading that the schedule names. -/
def OccursToday (z : Zone) (now : Instant) : Schedule → Prop
  | .recurring r =>
    ∃ w, (z.reading now).seconds < w ∧ Reading.dayNumber ⟨w, 0⟩ = z.dayAt now ∧
      r.matchesReading w = true ∧ ∃ t, z.earliest? ⟨w, 0⟩ = some t ∧ now < t
  | .once reading => reading.dayNumber = z.dayAt now ∧ ∃ t, z.earliest? reading = some t ∧ now < t

namespace Recurrence

variable {r : Recurrence}

theorem mem_secondsFrom {a b w : Int} : w ∈ secondsFrom a b ↔ a ≤ w ∧ w < b := by
  simp only [secondsFrom, List.mem_map, List.mem_range]
  constructor
  · rintro ⟨k, hk, rfl⟩
    omega
  · rintro ⟨ha, hb⟩
    exact ⟨(w - a).toNat, by omega, by omega⟩

theorem scan_ne_none {ws : List Int} {w : Int} {t : Instant} (hmem : w ∈ ws)
    (hmatches : r.matchesReading w = true) (ht : readingAfter? z now w = some t) :
    r.scan z now ws ≠ none := by
  intro hnone
  rw [scan_eq, List.findSome?_eq_none_iff] at hnone
  have hskipped := hnone w (List.mem_filter.2 ⟨hmem, hmatches⟩)
  exact absurd (ht.symm.trans hskipped) (Option.some_ne_none t)

/-- What is left of a day lies within the reach of the search. -/
theorem lt_endOfYear_of_today {w : Int} (hlt : (z.reading now).seconds < w)
    (hday : Reading.dayNumber ⟨w, 0⟩ = z.dayAt now) :
    w < endOfYear (Reading.year ⟨(z.reading now).seconds + 1, 0⟩ + 5) := by
  have hstart : Reading.dayNumber ⟨(z.reading now).seconds + 1, 0⟩ = z.dayAt now :=
    Reading.dayNumber_between (a := z.reading now) (b := ⟨w, 0⟩) (by omega) hlt hday.symm
  have hyear := Reading.year_eq_of_dayNumber (hday.trans hstart.symm)
  have hend := year_le_iff.1 (Int.le_of_eq hyear)
  exact Int.lt_of_lt_of_le hend (endOfYear_mono (by omega))

/-- The next time of a recurrence is on the day that the clock shows exactly if one of the seconds
left of the day is one of its seconds and counts. -/
theorem nextAfter_today (hz : z.Faithful) :
    (∃ t, r.nextAfter z now = some t ∧ z.dayAt t = z.dayAt now) ↔
      (Schedule.recurring r).OccursToday z now := by
  have hscan := nextAfter_eq_scan r z now
  simp only at hscan
  rw [hscan]
  constructor
  · rintro ⟨t, ht, hday⟩
    obtain ⟨w, hw, _, hmatches, hread, _⟩ := scan_eq_some_iff.1 ht
    obtain ⟨hearliest, hlt⟩ := readingAfter?_eq_some.1 hread
    exact ⟨w, by omega, (hz.dayAt hearliest).symm.trans hday, hmatches, t, hearliest, hlt⟩
  · rintro ⟨w, hw, hday, hmatches, t, ht, hlt⟩
    have hread := readingAfter?_eq_some.2 ⟨ht, hlt⟩
    have hmem := mem_secondsFrom.2
      (show _ ≤ w ∧ _ from ⟨Int.add_one_le_of_lt hw, lt_endOfYear_of_today hw hday⟩)
    obtain ⟨first, hfirst⟩ := Option.ne_none_iff_exists'.1 (scan_ne_none hmem hmatches hread)
    refine ⟨first, hfirst, ?_⟩
    -- The search ends at the first second that counts, which is no later than this one.
    obtain ⟨v, hv, _, _, hread', hnone⟩ := scan_eq_some_iff.1 hfirst
    have hvw : v ≤ w := by
      refine Int.le_of_not_gt fun hwv => ?_
      have hskipped := hnone w (by omega) hwv hmatches
      exact absurd (hread.symm.trans hskipped) (Option.some_ne_none t)
    rw [hz.dayAt (readingAfter?_eq_some.1 hread').1]
    exact Reading.dayNumber_between (a := z.reading now) (b := ⟨w, 0⟩) (by omega) hvw hday.symm

end Recurrence

/-- The search stays on the day exactly if there is an occurrence to come on it. -/
theorem nextAfter_on_day_iff (hz : z.Faithful) {s : Schedule} :
    (∃ t, s.nextAfter z now = some t ∧ z.dayAt t = z.dayAt now) ↔ s.OccursToday z now := by
  cases s with
  | recurring r => exact Recurrence.nextAfter_today hz
  | once reading =>
    simp only [nextAfter_once_eq_some]
    constructor
    · rintro ⟨t, ⟨ht, hlt⟩, hday⟩
      exact ⟨(hz.dayAt ht).symm.trans hday, t, ht, hlt⟩
    · rintro ⟨hday, t, ht, hlt⟩
      exact ⟨t, ⟨ht, hlt⟩, (hz.dayAt ht).trans hday⟩

/-- Whether an expression can be read and has an occurrence to come on the day that the clock
shows. -/
def Occurs (z : Zone) (now : Instant) (expr : String) : Prop :=
  ∃ s, parse expr = .ok s ∧ s.OccursToday z now

theorem excludes_iff (hz : z.Faithful) : excludes z now expr = true ↔ Occurs z now expr := by
  unfold excludes Occurs
  cases hparse : parse expr with
  | error e => simp
  | ok s =>
    simp only [Except.ok.injEq, exists_eq_left', ← nextAfter_on_day_iff hz]
    cases s.nextAfter z now with
    | none => simp
    | some t => simp

/-- The day is excluded by the first expression of a list that has an occurrence to come on it, and
by none if there is no such expression. What cannot be read makes no difference. -/
theorem excludedBy_first (hz : z.Faithful) (exprs : List String) (now : Instant) :
    (∀ e, excludedBy exprs z now = some e ↔ ∃ before after, exprs = before ++ e :: after ∧
      Occurs z now e ∧ ∀ e' ∈ before, ¬ Occurs z now e') ∧
    (excludedBy exprs z now = none ↔ ∀ e ∈ exprs, ¬ Occurs z now e) ∧
    ∀ others : List String, others.filter parses = exprs.filter parses →
      excludedBy others z now = excludedBy exprs z now := by
  refine ⟨fun e => ?_, ?_, fun others hsame => ?_⟩
  · rw [excludedBy, List.find?_eq_some_iff_append]
    simp only [excludes_iff hz, Bool.not_eq_true', ← Bool.not_eq_true]
    constructor
    · rintro ⟨hoccurs, before, after, rfl, hnone⟩
      exact ⟨before, after, rfl, hoccurs, hnone⟩
    · rintro ⟨before, after, rfl, hoccurs, hnone⟩
      exact ⟨hoccurs, before, after, rfl, hnone⟩
  · simp only [excludedBy, List.find?_eq_none, excludes_iff hz]
  · have hread : ∀ list : List String,
        excludedBy list z now = (list.filter parses).find? (excludes z now) := by
      intro list
      rw [List.find?_filter, excludedBy]
      congr 1
      funext e
      unfold parses excludes
      cases parse e <;> simp [Except.isOk, Except.toBool]
    rw [hread, hread, hsame]

/-- The seventeenth of February, all day. -/
def seventeenth : Recurrence :=
  { seconds := List.range 60, minutes := List.range 60, hours := List.range 24
    daysOfMonth := [17], months := [2], daysOfWeek := List.range 7
    anyDayOfMonth := false, anyDayOfWeek := true }

theorem parse_seventeenth : parse "* * * 17 2 *" = .ok (.recurring seventeenth) :=
  eq_ok_of_toOption (by decide +kernel)

/-- In Sao Paulo, half an hour before the end of 17 February 2018, the second of two expressions
excludes the day, since the first cannot be read. -/
theorem seventeenth_excluded :
    excludedBy ["not a cron", "* * * 17 2 *"] Zone.saoPaulo ⟨1518917400, 0⟩ =
      some "* * * 17 2 *" := by
  have hfaithful : Zone.saoPaulo.Faithful := Zone.faithful_ofOffsets _ _ _
  refine ((excludedBy_first hfaithful _ _).1 _).2 ⟨["not a cron"], [], rfl, ?_, ?_⟩
  · refine ⟨_, parse_seventeenth, 1518910201, ?_, ?_, ?_, ⟨1518917401, 0⟩, ?_, ?_⟩ <;>
      decide +kernel
  · rintro e he ⟨s, hs, -⟩
    obtain rfl := List.mem_singleton.1 he
    have hnone : (parse "not a cron").toOption = none := by decide +kernel
    rw [hs] at hnone
    exact absurd hnone (Option.some_ne_none s)

/-! ### Expressions that take in whole days -/

namespace Recurrence

/-- Whether a recurrence takes in every second of its days. -/
structure WholeDay (r : Recurrence) : Prop where
  hours : ∀ v ≤ 23, v ∈ r.hours
  minutes : ∀ v ≤ 59, v ∈ r.minutes
  seconds : ∀ v ≤ 59, v ∈ r.seconds

theorem WholeDay.matchesReading {r : Recurrence} (h : r.WholeDay) (w : Int) :
    r.matchesReading w = r.matchesDate (Reading.date ⟨w, 0⟩) := by
  have hday : Reading.secondOfDay ⟨w, 0⟩ < 86400 := by
    simp only [Reading.secondOfDay, secondsPerDay]
    omega
  have hhour := h.hours (Reading.secondOfDay ⟨w, 0⟩ / 3600) (by omega)
  have hminute := h.minutes (Reading.secondOfDay ⟨w, 0⟩ / 60 % 60) (by omega)
  have hsecond := h.seconds (Reading.secondOfDay ⟨w, 0⟩ % 60) (by omega)
  simp only [Recurrence.matchesReading, List.contains_iff_mem.2, hhour, hminute, hsecond,
    Bool.and_true]

/-- On one of its days it has an occurrence to come as long as the day goes on. -/
theorem WholeDay.occursToday_iff {r : Recurrence} (h : r.WholeDay)
    (hdate : r.matchesDate (z.reading now).date = true) :
    (Schedule.recurring r).OccursToday z now ↔ z.GoesOn now := by
  refine exists_congr fun w => and_congr_right fun _ => and_congr_right fun hday => ?_
  have hmatches : r.matchesReading w = true := by
    rw [h.matchesReading, Reading.date_eq_of_dayNumber (b := z.reading now) hday, hdate]
  exact and_iff_right hmatches

end Recurrence

theorem Denotes.of_star {f : Field} {values : List Nat} (h : Denotes f ['*'] values) {v : Nat}
    (hlow : f.low ≤ v) (hhigh : v ≤ f.high) : v ∈ values := by
  have hpart : IsPart f ['*'] ⟨f.low, f.high, 1, true⟩ := .whole .star
  have hlist : IsList f ['*'] [⟨f.low, f.high, 1, true⟩] :=
    ⟨[['*']], List.cons_ne_nil _ _, rfl, .cons hpart .nil⟩
  refine (h.mem_iff v).2 ⟨_, hlist, _, List.mem_cons_self, v - f.low, ?_, hhigh⟩
  simp only
  omega

/-- An expression whose first three words are asterisks takes in whole days. -/
theorem wholeDay_of_parse {dom mon dow : List Char} {r : Recurrence}
    (hwords : words (trim expr.toList) = [['*'], ['*'], ['*'], dom, mon, dow])
    (hparse : parse expr = .ok (.recurring r)) : r.WholeDay := by
  have hread : readFields expr (trim expr.toList) = .ok (.recurring r) := by
    unfold parse at hparse
    split at hparse
    · exact absurd hparse (by simp)
    · rename_i cs hat
      -- The first word of a descriptor begins with an at sign.
      obtain ⟨w, ws, hfirst⟩ := exists_words_cons (show isBlank '@' = false by decide) cs
      rw [hat, hfirst] at hwords
      exact absurd hwords (by simp)
    · exact hparse
  obtain ⟨-, r', hr, s, m, h, _, _, _, htokens, hs, hm, hh, -⟩ := readFields_eq_ok hread
  obtain rfl := Schedule.recurring.inj hr
  rw [hwords] at htokens
  simp only [List.cons.injEq] at htokens
  obtain ⟨rfl, rfl, rfl, -⟩ := htokens
  exact ⟨fun v hv => hh.of_star (Nat.zero_le v) hv, fun v hv => hm.of_star (Nat.zero_le v) hv,
    fun v hv => hs.of_star (Nat.zero_le v) hv⟩

theorem excludes_wholeDay_iff (hz : z.Faithful) {dom mon dow : List Char} {r : Recurrence}
    (hwords : words (trim expr.toList) = [['*'], ['*'], ['*'], dom, mon, dow])
    (hparse : parse expr = .ok (.recurring r))
    (hdate : r.matchesDate (z.reading now).date = true) :
    excludes z now expr = true ↔ z.GoesOn now := by
  rw [excludes_iff hz, Occurs, hparse]
  simp only [Except.ok.injEq, exists_eq_left',
    (wholeDay_of_parse hwords hparse).occursToday_iff hdate]

theorem exists_excludedBy {exprs : List String} (hmem : expr ∈ exprs)
    (h : excludes z now expr = true) : ∃ e ∈ exprs, excludedBy exprs z now = some e := by
  obtain ⟨e, he⟩ := Option.isSome_iff_exists.1 (List.find?_isSome.2 ⟨expr, hmem, h⟩)
  exact ⟨e, List.mem_of_find?_eq_some he, he⟩

/-- An expression whose second, minute and hour are asterisks excludes, on each of its days, exactly
as long as the clock still comes to a reading of the day that it has not shown before; in a regular
zone, as long as there is still a second of the day at which it shows something new. As long as that
is so, every list with the expression excludes the day, and a job with such a list is carried out
without anything being asked of the cluster, with the report that it was skipped. -/
theorem wholeDay_excluded (hz : z.Faithful) {dom mon dow : List Char} {r : Recurrence}
    (hwords : words (trim expr.toList) = [['*'], ['*'], ['*'], dom, mon, dow])
    (hparse : parse expr = .ok (.recurring r))
    (hdate : r.matchesDate (z.reading now).date = true) :
    (excludes z now expr = true ↔ z.GoesOn now) ∧
    (z.Regular → (z.GoesOn now ↔
      ∃ t : Int, now < ⟨t, 0⟩ ∧ z.dayAt ⟨t, 0⟩ = z.dayAt now ∧ z.First t)) ∧
    (z.GoesOn now → (∀ exprs, expr ∈ exprs → ∃ e ∈ exprs, excludedBy exprs z now = some e) ∧
      ∀ (j : Job) (s : ExecutionSettings) (ms : Int), s.zone = z → Instant.ofMillis ms = now →
        expr ∈ j.excludeDates → ∃ e ∈ j.excludeDates, ∃ report,
          j.execute s ms = .ended (.ok report) ∧
          report.message = "skip scaling activity,because of excludeDate (" ++ e ++ ").") := by
  have hexcludes := excludes_wholeDay_iff hz hwords hparse hdate
  refine ⟨hexcludes, fun hregular => hregular.goesOn_iff, fun hgoes => ?_⟩
  have hlist : ∀ exprs, expr ∈ exprs → ∃ e ∈ exprs, excludedBy exprs z now = some e :=
    fun exprs hmem => exists_excludedBy hmem (hexcludes.2 hgoes)
  refine ⟨hlist, fun j s ms hzone hnow hmem => ?_⟩
  obtain ⟨e, he, hfirst⟩ := hlist _ hmem
  refine ⟨e, he, .rested e, ?_, rfl⟩
  simp only [Job.execute, hzone, hnow, hfirst]

/-- A job that rests on 17 February. -/
def restingJob : Job :=
  { id := "job-1", name := "up", schedule := "0 30 23 * * *", desiredSize := 5, runOnce := false
    excludeDates := ["* * * 17 2 *"], owner := ⟨"default", "web"⟩
    target := ⟨"web", "default", "Deployment", "apps", "v1"⟩ }

/-- Half an hour before the clocks of Sao Paulo are put back from the midnight after 17 February
2018 to eleven, the day goes on, and the job rests. -/
theorem firstPass_excluded :
    ∃ e ∈ restingJob.excludeDates, ∃ report,
      restingJob.execute ⟨30000, 300000, Zone.saoPaulo⟩ 1518917400000 = .ended (.ok report) ∧
      report.message = "skip scaling activity,because of excludeDate (" ++ e ++ ")." := by
  have hfaithful : Zone.saoPaulo.Faithful := Zone.faithful_ofOffsets _ _ _
  have hgoes : Zone.saoPaulo.GoesOn ⟨1518917400, 0⟩ := by
    refine ⟨1518910201, ?_, ?_, ⟨1518917401, 0⟩, ?_, ?_⟩ <;> decide +kernel
  have hwords : words (trim "* * * 17 2 *".toList) =
      [['*'], ['*'], ['*'], ['1', '7'], ['2'], ['*']] := by decide +kernel
  have hdate : seventeenth.matchesDate (Zone.saoPaulo.reading ⟨1518917400, 0⟩).date = true := by
    decide +kernel
  have hexcluded := wholeDay_excluded hfaithful hwords parse_seventeenth hdate
  have hinstant : Instant.ofMillis 1518917400000 = ⟨1518917400, 0⟩ := by decide +kernel
  exact (hexcluded.2.2 hgoes).2 restingJob ⟨30000, 300000, Zone.saoPaulo⟩ 1518917400000 rfl
    hinstant List.mem_cons_self

/-- An hour later the clock shows the same readings of the same day for the second time: seconds of
the day are still to come, but the day is not excluded any more, and the job is carried out. -/
theorem secondPass_not_excluded :
    words (trim "* * * 17 2 *".toList) = [['*'], ['*'], ['*'], ['1', '7'], ['2'], ['*']] ∧
    parse "* * * 17 2 *" = .ok (.recurring seventeenth) ∧
    seventeenth.matchesDate (Zone.saoPaulo.reading ⟨1518921000, 0⟩).date = true ∧
    Zone.saoPaulo.dayAt ⟨1518921001, 0⟩ = Zone.saoPaulo.dayAt ⟨1518921000, 0⟩ ∧
    excludedBy ["* * * 17 2 *"] Zone.saoPaulo ⟨1518921000, 0⟩ = none ∧
    restingJob.execute ⟨30000, 300000, Zone.saoPaulo⟩ 1518921000000 =
      .attempting 1518921000000 0 restingJob.attempt := by
  have hwords : words (trim "* * * 17 2 *".toList) =
      [['*'], ['*'], ['*'], ['1', '7'], ['2'], ['*']] := by decide +kernel
  have hdate : seventeenth.matchesDate (Zone.saoPaulo.reading ⟨1518921000, 0⟩).date = true := by
    decide +kernel
  have hover : ¬ Zone.saoPaulo.GoesOn ⟨1518921000, 0⟩ := by
    rw [Zone.regular_saoPaulo.goesOn_iff]
    rintro ⟨t, hlt, hday, hfirst⟩
    have hstart : Zone.hourOf 2017 10 15 3 = 1508036400 := by decide +kernel
    have hend : Zone.hourOf 2018 2 18 2 = 1518919200 := by decide +kernel
    have hstart' : Zone.hourOf 2018 11 4 3 = 1541300400 := by decide +kernel
    have hend' : Zone.hourOf 2019 2 17 2 = 1550368800 := by decide +kernel
    -- What is shown in this hour was shown an hour before.
    have hagain := hfirst (t - 3600) (by omega)
    have hnow : Zone.saoPaulo.dayAt ⟨1518921000, 0⟩ = 17579 := by decide +kernel
    rw [hnow] at hday
    simp only [Instant.lt_iff, Zone.dayAt, Zone.reading, Instant.reading, Reading.dayNumber,
      Zone.localAt, Zone.saoPaulo, Zone.ofOffsets, Zone.saoPauloOffset, hstart, hend, hstart',
      hend', Zone.hours, secondsPerDay] at hlt hday hagain
    split at hday <;> split at hagain <;> omega
  have hnone : excludedBy ["* * * 17 2 *"] Zone.saoPaulo ⟨1518921000, 0⟩ = none := by
    rw [excludedBy, List.find?_singleton]
    refine if_neg fun hexcludes => hover ?_
    exact (excludes_wholeDay_iff Zone.regular_saoPaulo.faithful hwords parse_seventeenth hdate).1
      hexcludes
  have hinstant : Instant.ofMillis 1518921000000 = ⟨1518921000, 0⟩ := by decide +kernel
  refine ⟨hwords, parse_seventeenth, hdate, by decide +kernel, hnone, ?_⟩
  refine restingJob.execute_of_none ?_
  rw [hinstant]
  exact hnone

end Schedule

end CronScale
