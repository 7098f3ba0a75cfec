import CronScale.Proofs.Outcomes
import CronScale.Proofs.Schedule.Search
import CronScale.Schedule.Parse
/-!
# Times of schedules in billionths of a second

The next time of a schedule lies at the start of a second, or at the start of a leap second if the
schedule names one. For such instants the order of instants is the order of the numbers that count
billionths of a second, and the search for a next time may start from the number instead of the
instant. Nothing is said about the parts of a second at which clocks are read.
-/

namespace CronScale.Calendar.Instant

/-- An instant as a number of billionths of a second; a leap second counts as the second that
follows it. -/
def moment (i : Instant) : Int := i.seconds * nanosPerSecond + i.nanos

/-- Whether an instant is the start of a second or of a leap second. -/
def OnSecond (i : Instant) : Prop := i.nanos = 0 ∨ i.nanos = nanosPerSecond

theorem lt_iff {a b : Instant} :
    a < b ↔ a.seconds < b.seconds ∨ a.seconds = b.seconds ∧ a.nanos < b.nanos := by
  show a.before b = true ↔ _
  simp only [before, Bool.or_eq_true, Bool.and_eq_true, decide_eq_true_eq, beq_iff_eq]

theorem le_iff_not_lt {a b : Instant} : a ≤ b ↔ ¬ b < a := by
  show b.before a = false ↔ ¬ b.before a = true
  rw [Bool.not_eq_true]

theorem le_refl (a : Instant) : a ≤ a := by
  rw [le_iff_not_lt, lt_iff]
  omega

theorem le_of_lt {a b : Instant} (h : a < b) : a ≤ b := by
  rw [lt_iff] at h
  rw [le_iff_not_lt, lt_iff]
  omega

theorem le_trans {a b c : Instant} (hab : a ≤ b) (hbc : b ≤ c) : a ≤ c := by
  rw [le_iff_not_lt, lt_iff] at *
  omega

theorem le_antisymm {a b : Instant} (hab : a ≤ b) (hba : b ≤ a) : a = b := by
  cases a
  cases b
  rw [le_iff_not_lt, lt_iff] at hab hba
  simp only [mk.injEq] at *
  omega

theorem lt_of_le_of_lt {a b c : Instant} (hab : a ≤ b) (hbc : b < c) : a < c := by
  rw [le_iff_not_lt, lt_iff] at hab
  rw [lt_iff] at *
  omega

/-- A clock that counts billionths of a second has reached a whole second exactly when it shows at
least as much. -/
theorem le_ofNanos_iff {t : Instant} {n : Int} (h : t.OnSecond) : t ≤ ofNanos n ↔ t.moment ≤ n := by
  rw [le_iff_not_lt, lt_iff]
  unfold OnSecond nanosPerSecond at h
  simp only [ofNanos, moment, nanosPerSecond]
  omega

theorem ofNanos_lt_iff {t : Instant} {n : Int} (h : t.OnSecond) : ofNanos n < t ↔ n < t.moment := by
  rw [← Decidable.not_not (p := ofNanos n < t), ← le_iff_not_lt, le_ofNanos_iff h, Int.not_le]

theorem moment_le {a b : Instant} (ha : a.OnSecond) (h : a ≤ b) : a.moment ≤ b.moment := by
  rw [le_iff_not_lt, lt_iff] at h
  unfold OnSecond nanosPerSecond at ha
  simp only [moment, nanosPerSecond]
  omega

theorem seconds_ofNanos (n : Int) : (ofNanos n).seconds = n / 1000000000 := rfl

theorem nanos_ofNanos (n : Int) : ((ofNanos n).nanos : Int) = n % 1000000000 := by
  simp only [ofNanos, nanosPerSecond]
  omega

/-- A difference between days may leave out a leap second, which makes a wait too short but never
too long, and never leaves nothing of it. -/
theorem since_ofNanos {t : Instant} {n : Int} (h : t.OnSecond) (hn : n < t.moment) :
    0 < t.since (ofNanos n) ∧ t.since (ofNanos n) ≤ t.moment - n := by
  have hseconds := seconds_ofNanos n
  have hnanos := nanos_ofNanos n
  generalize ofNanos n = now at hseconds hnanos ⊢
  unfold OnSecond nanosPerSecond at h
  simp only [moment, nanosPerSecond] at hn ⊢
  have hpart : ¬ nanosPerSecond ≤ now.nanos := by
    unfold nanosPerSecond
    omega
  simp only [since, hpart, if_false]
  split
  · unfold nanosPerSecond
    omega
  · split
    · unfold secondsPerDay at *
      split <;> (unfold nanosPerSecond at *; omega)
    · unfold nanosPerSecond
      omega

/-- What is still to come was not missed. -/
theorem ofNanos_since_neg {t : Instant} {n : Int} (h : t.OnSecond) (hn : n < t.moment) :
    (ofNanos n).since t < 0 := by
  have hseconds := seconds_ofNanos n
  have hnanos := nanos_ofNanos n
  generalize ofNanos n = now at hseconds hnanos ⊢
  unfold OnSecond nanosPerSecond at h
  simp only [moment, nanosPerSecond] at hn
  have hpart : ¬ nanosPerSecond ≤ now.nanos := by
    unfold nanosPerSecond
    omega
  have hleap : (if nanosPerSecond ≤ t.nanos then 1 else 0) * 1000000000 ≤ (t.nanos : Int) := by
    unfold nanosPerSecond
    split <;> omega
  simp only [since, hpart, if_false, ite_self]
  generalize (if nanosPerSecond ≤ t.nanos then (1 : Int) else 0) = leap at hleap ⊢
  unfold nanosPerSecond secondsPerDay
  split <;> omega

end CronScale.Calendar.Instant

namespace CronScale.Calendar

theorem Reading.onSecond_ofDate (d : Date) (hour minute second : Nat) :
    (Reading.ofDate d hour minute second).nanos = 0 ∨
      (Reading.ofDate d hour minute second).nanos = nanosPerSecond := by
  simp only [Reading.ofDate]
  split
  · exact .inr rfl
  · exact .inl rfl

/-- A date that was read names a whole second or a leap second. -/
theorem onSecond_of_readDateTime {cs : List Char} {r : Reading} (h : readDateTime cs = .ok r) :
    r.nanos = 0 ∨ r.nanos = nanosPerSecond := by
  simp only [readDateTime, bind_eq_ok] at h
  obtain ⟨_, _, _, _, _, _, _, _, _, _, _, _, _, _, _, _, _, _, _, _, h⟩ := h
  split at h
  · exact absurd h (by simp [throw, throwThe, MonadExceptOf.throw, bind, Except.bind])
  split at h
  · rw [← pure_eq_ok.1 h]
    exact Reading.onSecond_ofDate _ _ _ _
  · exact absurd h (by simp [throw, throwThe, MonadExceptOf.throw])

end CronScale.Calendar

namespace CronScale.Schedule

open CronScale.Calendar

variable {s : Schedule} {z : Zone} {after t : Instant}

theorem nextAfter_once_eq_some {r : Reading} :
    (Schedule.once r).nextAfter z after = some t ↔ z.earliest? r = some t ∧ after < t := by
  simp only [nextAfter]
  cases z.earliest? r with
  | none => simp
  | some u =>
    by_cases hu : after < u
    · simp only [hu, if_true, Option.some.injEq]
      exact ⟨fun h => ⟨h, h ▸ hu⟩, And.left⟩
    · simp only [hu, if_false, Option.some.injEq, reduceCtorEq, false_iff]
      rintro ⟨rfl, h⟩
      exact hu h

theorem readingAfter?_eq_some {w : Int} :
    readingAfter? z after w = some t ↔ z.earliest? ⟨w, 0⟩ = some t ∧ after < t :=
  nextAfter_once_eq_some (r := ⟨w, 0⟩)

theorem nanos_of_earliest? {r : Reading} (h : z.earliest? r = some t) :
    t.nanos = r.nanos := by
  obtain ⟨_, _, rfl⟩ := Option.map_eq_some_iff.1 h
  rfl

/-- A next time of a recurrence is the first instant of a whole second, and it is later. -/
theorem Recurrence.exists_readingAfter?_of_nextAfter {r : Recurrence}
    (h : r.nextAfter z after = some t) : ∃ w, readingAfter? z after w = some t := by
  rw [Recurrence.nextAfter, Recurrence.search_eq_scan, Recurrence.scan_eq] at h
  obtain ⟨w, _, hw⟩ := List.exists_of_findSome?_eq_some h
  exact ⟨w, hw⟩

/-- Whether a schedule that names one single reading names a whole second or a leap second. -/
def OnSecond : Schedule → Prop
  | .recurring _ => True
  | .once r => r.nanos = 0 ∨ r.nanos = nanosPerSecond

theorem lt_of_nextAfter (h : s.nextAfter z after = some t) : after < t := by
  cases s with
  | recurring r =>
    obtain ⟨w, hw⟩ := Recurrence.exists_readingAfter?_of_nextAfter h
    exact (readingAfter?_eq_some.1 hw).2
  | once r => exact (nextAfter_once_eq_some.1 h).2

theorem onSecond_nextAfter (hs : s.OnSecond) (h : s.nextAfter z after = some t) : t.OnSecond := by
  cases s with
  | recurring r =>
    obtain ⟨w, hw⟩ := Recurrence.exists_readingAfter?_of_nextAfter h
    exact .inl (nanos_of_earliest? (readingAfter?_eq_some.1 hw).1)
  | once r =>
    rw [Instant.OnSecond, nanos_of_earliest? (nextAfter_once_eq_some.1 h).1]
    exact hs

theorem ofNanos_moment {i : Instant} (h : i.nanos = 0) : Instant.ofNanos i.moment = i := by
  obtain ⟨seconds, nanos⟩ := i
  subst h
  simp only [Instant.ofNanos, Instant.moment, nanosPerSecond, Instant.mk.injEq]
  omega

/-- The search for the next time may go on from the number that counts up to the last one. -/
theorem nextAfter_ofNanos_moment (hs : s.OnSecond) (h : s.nextAfter z after = some t) :
    s.nextAfter z (Instant.ofNanos t.moment) = s.nextAfter z t := by
  have ht := onSecond_nextAfter hs h
  cases s with
  | recurring r =>
    obtain ⟨w, hw⟩ := Recurrence.exists_readingAfter?_of_nextAfter h
    rw [ofNanos_moment (nanos_of_earliest? (readingAfter?_eq_some.1 hw).1)]
  | once r =>
    -- The only time of the schedule is over, however its end is counted.
    have hover : ∀ i, ¬ i < t → (Schedule.once r).nextAfter z i = none := by
      intro i hi
      rw [Option.eq_none_iff_forall_ne_some]
      intro u hu
      obtain ⟨hread, hlt⟩ := nextAfter_once_eq_some.1 hu
      rw [(nextAfter_once_eq_some.1 h).1, Option.some.injEq] at hread
      exact hi (hread ▸ hlt)
    rw [hover _ (by rw [Instant.ofNanos_lt_iff ht]; omega),
      hover _ (by rw [Instant.lt_iff]; omega)]

theorem onSecond_of_readFields {expr : String} {cs : List Char} (h : readFields expr cs = .ok s) :
    s.OnSecond := by
  simp only [readFields] at h
  split at h
  · simp only [bind_eq_ok, pure_eq_ok] at h
    obtain ⟨_, _, _, _, _, _, _, _, _, _, _, _, rfl⟩ := h
    exact trivial
  · exact absurd h (by simp)

/-- A schedule that was read names whole seconds and leap seconds only. -/
theorem onSecond_of_parse {expr : String} (h : parse expr = .ok s) : s.OnSecond := by
  simp only [parse] at h
  split at h
  · exact absurd h (by simp)
  · simp only [readDescriptor] at h
    split at h
    · split at h
      · rename_i r hr
        rw [← Except.ok.inj h]
        exact onSecond_of_readDateTime hr
      · exact absurd h (by simp)
    · split at h
      · exact onSecond_of_readFields h
      · exact absurd h (by simp)
  · exact onSecond_of_readFields h

end CronScale.Schedule
