import CronScale.Manager.Basic
import CronScale.Proofs.Schedule.Clocks
/-!
# Jobs that are put in anew

In a regular zone the next time of a recurrence is the first instant to come at which the clock
shows one of its readings for the first time (`Schedule.nextAfter_regular`). So a job that is put
into the agenda anew before it is due stays due at the same time. There are two limits to that. A
search ends with the fifth year after the one from which it starts, and when the clocks were put
back over the turn of a year it starts in an earlier one. And a job that was due already, but has
not been taken yet, is due at a later time when it is put in anew (`Schedule.leapDay_out_of_reach`).
-/

namespace CronScale

open CronScale.Calendar

/-- A job that is put in anew while the next time of its recurrence is still the same has the same
entry as before. -/
theorem Agenda.exists_add_twice {J : Type} [Schedulable J] (a : Agenda J) {r : Schedule.Recurrence}
    {expr : String} {after after' t : Instant} (job : J)
    (hparse : Schedule.parse expr = .ok (.recurring r))
    (h : (Schedule.recurring r).nextAfter a.zone after = some t)
    (hagain : (Schedule.recurring r).nextAfter a.zone after' = some t) :
    ∃ b c e, a.add after expr job = .ok b ∧ b.add after' expr job = .ok c ∧
      b.entries.get? (Schedulable.id job) = some e ∧
      c.entries.get? (Schedulable.id job) = some e ∧ e.job = job ∧ e.next = some t := by
  refine ⟨_, _, ⟨job, expr, .recurring r, none, some t⟩, by rw [add, hparse], by rw [add, hparse],
    ?_, ?_, rfl, rfl⟩
  · simp only [Table.get?_insert, if_true, h]
  · simp only [Table.get?_insert, if_true, hagain]

namespace Schedule

/-- In a regular zone the next time of a recurrence is the first instant to come at which the clock
shows one of its readings for the first time. So a later search never finds an earlier time, and a
search from a moment before the time found finds it again, unless it starts in an earlier year and
ends before that time; then it finds nothing. A job that is put into an agenda anew before that time
keeps its entry. -/
theorem nextAfter_regular {z : Zone} (hz : z.Regular) (r : Recurrence) {after t : Instant}
    (h : (Schedule.recurring r).nextAfter z after = some t) :
    (after < t ∧ t.nanos = 0 ∧ r.FallsOn z t.seconds ∧
      ∀ u : Int, after < ⟨u, 0⟩ → ⟨u, 0⟩ < t → ¬ r.FallsOn z u) ∧
    (∀ after' t', after ≤ after' → (Schedule.recurring r).nextAfter z after' = some t' →
      t ≤ t' ∧ (after' < t → t' = t)) ∧
    ∀ after', after ≤ after' → after' < t →
      (Schedule.recurring r).nextAfter z after' =
        (if z.localAt t.seconds < horizon z after' then some t else none) ∧
      (startYear z after ≤ startYear z after' →
        (Schedule.recurring r).nextAfter z after' = some t ∧
        ∀ {J : Type} [Schedulable J] (a : Agenda J) (expr : String) (job : J), a.zone = z →
          Schedule.parse expr = .ok (.recurring r) →
          ∃ b c e, a.add after expr job = .ok b ∧ b.add after' expr job = .ok c ∧
            b.entries.get? (Schedulable.id job) = some e ∧
            c.entries.get? (Schedulable.id job) = some e ∧ e.job = job ∧ e.next = some t) := by
  obtain ⟨hnanos, hlt, hfalls, _, hleast⟩ := (Recurrence.nextAfter_eq_some_iff hz).1 h
  refine ⟨⟨hlt, hnanos, hfalls, fun u hu hut hu' => ?_⟩, fun after' t' hafter ht' => ?_,
    fun after' hafter hbefore => ⟨?_, fun hyear => ?_⟩⟩
  · have := hleast u hu hu'
    rw [Instant.lt_iff] at hut
    simp only at hut
    omega
  · refine ⟨Recurrence.nextAfter_le hz h hafter ht', fun hbefore => ?_⟩
    have hagain := Recurrence.nextAfter_again hz h hafter hbefore
    split at hagain
    · exact Option.some.inj (ht'.symm.trans hagain)
    · exact absurd (ht'.symm.trans hagain) (Option.some_ne_none t')
  · exact Recurrence.nextAfter_again hz h hafter hbefore
  · have hagain := Recurrence.nextAfter_of_startYear_le hz h hafter hbefore hyear
    refine ⟨hagain, fun a expr job hzone hparse => ?_⟩
    subst hzone
    exact a.exists_add_twice job hparse h hagain

/-- Every day half an hour before midnight. -/
def beforeMidnight : Recurrence :=
  { seconds := [0], minutes := [30], hours := [23]
    daysOfMonth := (List.range 32).tail, months := (List.range 13).tail
    daysOfWeek := List.range 7, anyDayOfMonth := true, anyDayOfWeek := true }

/-- In the night in which the clocks of Sao Paulo are put back from midnight to eleven, half past
eleven counts once: a search from after its first occurrence finds the next day's, and so does one
from after the second. -/
theorem beforeMidnight_once :
    (Schedule.recurring beforeMidnight).nextAfter Zone.saoPaulo ⟨1518917400, 0⟩ =
      some ⟨1519007400, 0⟩ ∧
    (∀ u : Int, (⟨1518917400, 0⟩ : Instant) < ⟨u, 0⟩ → (⟨u, 0⟩ : Instant) < ⟨1519007400, 0⟩ →
      ¬ beforeMidnight.FallsOn Zone.saoPaulo u) ∧
    (Schedule.recurring beforeMidnight).nextAfter Zone.saoPaulo ⟨1518921000, 0⟩ =
      some ⟨1519007400, 0⟩ := by
  have h : (Schedule.recurring beforeMidnight).nextAfter Zone.saoPaulo ⟨1518917400, 0⟩ =
      some ⟨1519007400, 0⟩ := by decide +kernel
  obtain ⟨⟨_, _, _, hnone⟩, _, hagain⟩ :=
    nextAfter_regular Zone.regular_saoPaulo beforeMidnight h
  obtain ⟨_, hsame⟩ := hagain ⟨1518921000, 0⟩ (by decide) (by decide)
  exact ⟨h, hnone, (hsame (by decide +kernel)).1⟩

/-- Clocks that are put back by an hour half an hour after the turn of a year. -/
def turnOfYear : Zone :=
  .ofOffsets "Turn of the year" [Zone.hours 1, 0]
    fun t => if t < Zone.hourOf 2099 1 1 0 - 1800 then Zone.hours 1 else 0

theorem regular_turnOfYear : turnOfYear.Regular := by
  have hchange : Zone.hourOf 2099 1 1 0 = 4070908800 := by decide +kernel
  refine Zone.regular_ofOffsets (by decide) (by decide) (fun t => ?_) (fun s t hs ht hst => ?_)
  · split
    · exact .inl rfl
    · exact .inr rfl
  · simp only [hchange, Zone.hours] at hs ht
    split at hs <;> split at hs <;> split at ht <;> split at ht <;> omega

/-- The start of every leap day. -/
def leapDays : Recurrence :=
  { seconds := [0], minutes := [0], hours := [0], daysOfMonth := [29], months := [2]
    daysOfWeek := List.range 7, anyDayOfMonth := false, anyDayOfWeek := true }

/-- A job for the start of every minute. -/
def everyMinute : Job := { (default : Job) with id := "a", schedule := "0 * * * * *" }

/-- The schedule of that job. -/
def wheneverMinute : Schedule :=
  .recurring
    { seconds := [0], minutes := List.range 60, hours := List.range 24
      daysOfMonth := (List.range 32).tail, months := (List.range 13).tail
      daysOfWeek := List.range 7, anyDayOfMonth := true, anyDayOfWeek := true }

/-- A quarter of an hour into 2099 the next leap day is in 2104; after the clocks were put back into
2098 there is none within five years. And a job that is put in anew half a minute after it was due
is due at the next minute instead. -/
theorem leapDay_out_of_reach :
    (turnOfYear.Regular ∧
      (⟨4070906100, 0⟩ : Instant) ≤ ⟨4070907000, 0⟩ ∧
      (⟨4070907000, 0⟩ : Instant) < ⟨4233686400, 0⟩ ∧
      (Schedule.recurring leapDays).nextAfter turnOfYear ⟨4070906100, 0⟩ =
        some ⟨4233686400, 0⟩ ∧
      (Schedule.recurring leapDays).nextAfter turnOfYear ⟨4070907000, 0⟩ = none) ∧
    Zone.utc.Regular ∧ ∃ b c : Agenda Job,
      (Agenda.empty Zone.utc 0).add ⟨0, 0⟩ everyMinute.schedule everyMinute = .ok b ∧
      b.add ⟨90, 0⟩ everyMinute.schedule everyMinute = .ok c ∧
      (b.entries.get? everyMinute.id).bind (·.next) = some ⟨60, 0⟩ ∧
      (c.entries.get? everyMinute.id).bind (·.next) = some ⟨120, 0⟩ := by
  have hfound : (Schedule.recurring leapDays).nextAfter turnOfYear ⟨4070906100, 0⟩ =
      some ⟨4233686400, 0⟩ := by decide +kernel
  have hnone : (Schedule.recurring leapDays).nextAfter turnOfYear ⟨4070907000, 0⟩ = none := by
    decide +kernel
  have hparse : (Schedule.parse everyMinute.schedule).toOption = some wheneverMinute := by
    decide +kernel
  have hdue : wheneverMinute.nextAfter Zone.utc ⟨0, 0⟩ = some ⟨60, 0⟩ := by decide +kernel
  have hlater : wheneverMinute.nextAfter Zone.utc ⟨90, 0⟩ = some ⟨120, 0⟩ := by decide +kernel
  refine ⟨⟨regular_turnOfYear, by decide, by decide, hfound, hnone⟩, Zone.regular_fixed _ _, _, _,
    by rw [Agenda.add, eq_ok_of_toOption hparse], by rw [Agenda.add, eq_ok_of_toOption hparse],
    ?_, ?_⟩
  · simp only [Table.get?_insert]
    exact hdue
  · simp only [Table.get?_insert]
    exact hlater

end Schedule

end CronScale
