import CronScale.Schedule.Next
/-!
# The search passes nothing by

The search for the next time of a recurrence jumps by months, days, hours and minutes. It finds what
a walk through every single second finds: among the seconds that are seconds of the recurrence, the
first one that exists in the zone and is read for the first time after the instant asked about.
Zones are arbitrary here, and so are the sets of a recurrence; how an expression is read plays no
part.
-/

namespace CronScale.Schedule

open CronScale.Calendar

/-- All seconds of the wall clock from `a` on and before `b`, in their order. -/
def secondsFrom (a b : Int) : List Int := (List.range (b - a).toNat).map fun (k : Nat) => a + k

theorem secondsFrom_eq_nil {a b : Int} (h : b ≤ a) : secondsFrom a b = [] := by
  rw [secondsFrom, show (b - a).toNat = 0 by omega]
  rfl

theorem secondsFrom_eq_cons {a b : Int} (h : a < b) :
    secondsFrom a b = a :: secondsFrom (a + 1) b := by
  rw [secondsFrom, secondsFrom, show (b - a).toNat = (b - (a + 1)).toNat + 1 by omega,
    List.range_succ_eq_map, List.map_cons, List.map_map]
  congr 1
  · exact Int.add_zero a
  · apply List.map_congr_left
    intro k _
    simp only [Function.comp_apply]
    omega

/-- Where a second of the wall clock counts: at the earliest of the instants at which a zone shows
it, provided that there is one and that it is later than `after`. -/
def countsAt? (z : Zone) (after : Instant) (w : Int) : Option Instant :=
  match z.resolve w with
  | .skipped => none
  | .unique t => if after < ⟨t, 0⟩ then some ⟨t, 0⟩ else none
  | .repeated earlier _ => if after < ⟨earlier, 0⟩ then some ⟨earlier, 0⟩ else none

theorem countsAt?_eq (z : Zone) (after : Instant) (w : Int) :
    countsAt? z after w = readingAfter? z after w := by
  unfold countsAt? readingAfter? Zone.earliest?
  cases z.resolve w <;> rfl

namespace Recurrence

/-- Among some seconds those of a recurrence, and of these the first that counts. -/
def scan (r : Recurrence) (z : Zone) (after : Instant) (ws : List Int) : Option Instant :=
  (ws.filter r.matchesReading).findSome? (countsAt? z after)

variable {r : Recurrence} {z : Zone} {after : Instant}

/-- The seconds count in a walk as they do in the search. -/
theorem scan_eq (ws : List Int) :
    r.scan z after ws = (ws.filter r.matchesReading).findSome? (readingAfter? z after) :=
  congrArg (List.findSome? · _) (funext (countsAt?_eq z after))

theorem scan_cons_of_not_matches {w : Int} {ws : List Int} (h : r.matchesReading w = false) :
    r.scan z after (w :: ws) = r.scan z after ws := by
  rw [scan, List.filter_cons_of_neg (by simp [h]), scan]

theorem scan_cons_of_matches {w : Int} {ws : List Int} (h : r.matchesReading w = true) :
    r.scan z after (w :: ws) = (readingAfter? z after w).or (r.scan z after ws) := by
  rw [scan_eq, List.filter_cons_of_pos h, List.findSome?_cons, scan_eq]
  cases readingAfter? z after w <;> rfl

/-- A second on which the search stays is one of the seconds of the recurrence. -/
theorem matches_of_skip?_eq_none {w : Int} (h : r.skip? w = none) : r.matchesReading w = true := by
  simp only [skip?] at h
  split at h
  · exact absurd h (Option.some_ne_none _)
  split at h
  · exact absurd h (Option.some_ne_none _)
  split at h
  · exact absurd h (Option.some_ne_none _)
  split at h
  · exact absurd h (Option.some_ne_none _)
  split at h
  · exact absurd h (Option.some_ne_none _)
  rename_i hmonth hday hhour hminute hsecond
  simp only [Bool.not_eq_true', Bool.not_eq_false] at hmonth hday hhour hminute hsecond
  simp only [matchesReading, matchesDate, hmonth, hday, hhour, hminute, hsecond, Bool.and_self]

/-- What the search jumps over shares with its start the part that is not allowed: the month, the
day, the hour or the minute. -/
theorem not_matches_of_skip? {w w' v : Int} (h : r.skip? w = some w') (hv : w ≤ v) (hv' : v < w') :
    r.matchesReading v = false := by
  simp only [skip?] at h
  split at h
  · rename_i hmonth
    obtain rfl := Option.some.inj h
    have hsame : (Reading.date ⟨v, 0⟩).month = (Reading.date ⟨w, 0⟩).month := by
      apply Date.month_ofDayNumber
      · exact Int.ediv_le_ediv (by decide) hv
      · simp only [monthAfter, Reading.date, Reading.dayNumber, secondsPerDay] at hv' ⊢
        omega
    simp only [Bool.not_eq_true'] at hmonth
    simp only [matchesReading, matchesDate, hsame, hmonth, Bool.false_and]
  split at h
  · rename_i hday
    obtain rfl := Option.some.inj h
    have hsame : Reading.date ⟨v, 0⟩ = Reading.date ⟨w, 0⟩ := by
      apply congrArg Date.ofDayNumber
      simp only [dayAfter, Reading.dayNumber, secondsPerDay] at hv' ⊢
      omega
    simp only [Bool.not_eq_true'] at hday
    simp only [matchesReading, matchesDate, hsame, hday, Bool.and_false, Bool.false_and]
  split at h
  · rename_i hhour
    obtain rfl := Option.some.inj h
    have hsame : Reading.secondOfDay ⟨v, 0⟩ / 3600 = Reading.secondOfDay ⟨w, 0⟩ / 3600 := by
      simp only [hourAfter, Reading.secondOfDay, secondsPerDay] at hv' ⊢
      omega
    simp only [Bool.not_eq_true'] at hhour
    simp only [matchesReading, hsame, hhour, Bool.and_false, Bool.false_and]
  split at h
  · rename_i hminute
    obtain rfl := Option.some.inj h
    have hsame : Reading.secondOfDay ⟨v, 0⟩ / 60 % 60 = Reading.secondOfDay ⟨w, 0⟩ / 60 % 60 := by
      simp only [minuteAfter, Reading.secondOfDay, secondsPerDay] at hv' ⊢
      omega
    simp only [Bool.not_eq_true'] at hminute
    simp only [matchesReading, hsame, hminute, Bool.and_false, Bool.false_and]
  split at h
  · rename_i hsecond
    obtain rfl := Option.some.inj h
    have hsame : v = w := by omega
    simp only [Bool.not_eq_true'] at hsecond
    simp only [matchesReading, hsame, hsecond, Bool.and_false]
  · exact absurd h (Option.some_ne_none w').symm

/-- Seconds that are not seconds of the recurrence can be left out at the start of a walk. -/
theorem scan_secondsFrom_add {w e : Int} (n : Nat)
    (h : ∀ v, w ≤ v → v < w + n → r.matchesReading v = false) :
    r.scan z after (secondsFrom w e) = r.scan z after (secondsFrom (w + n) e) := by
  induction n generalizing w with
  | zero => rw [Int.natCast_zero, Int.add_zero]
  | succ n ih =>
    rcases Int.lt_or_le w e with hlt | hle
    · have hrest := ih (w := w + 1) fun v hv hv' => h v (by omega) (by omega)
      rw [secondsFrom_eq_cons hlt, scan_cons_of_not_matches (h w (by omega) (by omega)), hrest]
      congr 2
      omega
    · rw [secondsFrom_eq_nil hle, secondsFrom_eq_nil (by omega)]

/-- The invariant of the search: from every second that it comes to, it finds what a walk from there
to the end of the last year finds. -/
theorem search_eq_scan (r : Recurrence) (z : Zone) (after : Instant) (lastYear w : Int) :
    r.search z after lastYear w = r.scan z after (secondsFrom w (endOfYear lastYear)) := by
  fun_induction search r z after lastYear w with
  | case1 w hyear w' hskip ih =>
    have hlt := lt_of_skip? hskip
    have hw' : w + ((w' - w).toNat : Int) = w' := by omega
    rw [ih, ← hw']
    refine (scan_secondsFrom_add _ fun v hv hv' => ?_).symm
    exact not_matches_of_skip? hskip hv (hw' ▸ hv')
  | case2 w hyear hskip t ht =>
    rw [secondsFrom_eq_cons (year_le_iff.1 hyear),
      scan_cons_of_matches (matches_of_skip?_eq_none hskip), ht]
    rfl
  | case3 w hyear hskip ht ih =>
    rw [secondsFrom_eq_cons (year_le_iff.1 hyear),
      scan_cons_of_matches (matches_of_skip?_eq_none hskip), ht, ih]
    rfl
  | case4 w hyear =>
    rw [year_le_iff, Int.not_lt] at hyear
    rw [secondsFrom_eq_nil hyear]
    rfl

/-- The next time of a recurrence is the one that a walk through every second finds, from the second
after the one that the clock shows up to the end of the fifth year after that: the first second of
the recurrence that the clock shows at all, and for the first time after `after`. -/
theorem nextAfter_eq_scan (r : Recurrence) (z : Zone) (after : Instant) :
    let start := (z.reading after).seconds + 1
    r.nextAfter z after =
      r.scan z after (secondsFrom start (endOfYear (Reading.year ⟨start, 0⟩ + 5))) :=
  search_eq_scan r z after _ _

end Recurrence

end CronScale.Schedule
