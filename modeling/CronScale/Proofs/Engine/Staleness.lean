import CronScale.Proofs.Engine.Firing
import CronScale.Settings.Basic
/-!
# How late an entry may be

The staleness is set as a word of 64 bits that counts seconds. It is understood as a number with a
sign, and made a span of time, which cannot be as long as that. Up to `Settings.maxSpanSeconds` the
span is as long as the setting says, and an entry is out of date only if it is overdue by more
(`Settings.staleness_honored`). Nobody objects to a greater word, but there is no span for most of
them; and the greatest ones are taken for spans below zero, so that an entry is called out of date
before it is due (`Settings.greatest_staleness_misjudged`).
-/

namespace CronScale

open CronScale.Calendar CronScale.Text

namespace Calendar.Instant

/-- Where no leap second is involved, billionths of a second are simply counted. -/
theorem since_eq {a b : Instant} (ha : a.nanos < nanosPerSecond) (hb : b.nanos < nanosPerSecond) :
    a.since b = a.moment - b.moment := by
  simp only [since, if_neg (Nat.not_le.2 ha), if_neg (Nat.not_le.2 hb), ite_self, moment]
  rw [Int.add_zero, Int.sub_mul]
  omega

/-- A clock that is not in a leap second is past every instant since which time has gone by. -/
theorem lt_of_since_pos {a b : Instant} (ha : a.nanos < nanosPerSecond) (h : 0 < a.since b) :
    b < a := by
  rw [lt_iff]
  simp only [since, if_neg (Nat.not_le.2 ha)] at h
  unfold nanosPerSecond secondsPerDay at *
  split at h
  · omega
  · simp only [ite_self] at h
    omega

end Calendar.Instant

theorem Agenda.find_eq_outOfDate {J : Type} [Schedulable J] {a : Agenda J} {now t : Instant}
    {id : String} : a.find now id = .outOfDate t ↔
      ∃ e, a.entries.get? id = some e ∧ e.next = some t ∧ a.staleness < now.since t := by
  constructor
  · intro h
    unfold find at h
    split at h
    next => cases h
    next e hentry =>
      split at h
      next => cases h
      next u hnext =>
        split at h
        next hlate =>
          cases h
          exact ⟨e, hentry, hnext, hlate⟩
        next => cases h
  · rintro ⟨e, hentry, hnext, hlate⟩
    simp only [find, hentry, hnext, if_pos hlate]

namespace Settings

variable {s : Settings}

/-- The lower half of the words are understood as themselves. -/
theorem signedWord_of_le_half {n : Nat} (h : n ≤ word64 / 2) : signedWord n = n := by
  rw [signedWord, Int.bmod_def]
  unfold word64 at *
  omega

/-- The upper half are understood as numbers below zero. -/
theorem signedWord_of_half_lt {n : Nat} (hsign : word64 / 2 < n) (hword : n ≤ word64) :
    signedWord n = n - (word64 + 1) := by
  rw [signedWord, Int.bmod_def]
  unfold word64 at *
  omega

/-- Of the words of either half, those next to the middle are too far from zero for a span. -/
theorem stalenessMillis?_eq (hword : s.stalenessSecs ≤ word64) : s.stalenessMillis? =
    if (s.stalenessSecs : Int) ≤ maxSpanSeconds then some ((s.stalenessSecs : Int) * 1000)
    else if s.stalenessSecs + maxSpanSeconds ≤ word64 then none
    else some (((s.stalenessSecs : Int) - (word64 + 1)) * 1000) := by
  unfold stalenessMillis?
  by_cases hsign : s.stalenessSecs ≤ word64 / 2
  · have hlow : -maxSpanSeconds ≤ (s.stalenessSecs : Int) := by
      unfold maxSpanSeconds
      omega
    have hnone : s.stalenessSecs + maxSpanSeconds ≤ word64 := by
      unfold maxSpanSeconds word64 at *
      omega
    simp only [signedWord_of_le_half hsign, hlow, true_and, if_pos hnone]
  · have hlong : ¬ (s.stalenessSecs : Int) ≤ maxSpanSeconds := by
      unfold maxSpanSeconds word64 at *
      omega
    have hspan : (-maxSpanSeconds ≤ (s.stalenessSecs : Int) - (word64 + 1) ∧
        (s.stalenessSecs : Int) - (word64 + 1) ≤ maxSpanSeconds) ↔
        ¬ s.stalenessSecs + maxSpanSeconds ≤ word64 := by
      unfold maxSpanSeconds word64 at *
      omega
    simp only [signedWord_of_half_lt (Nat.not_le.1 hsign) hword, if_neg hlong, hspan, ite_not]

theorem stalenessMillis?_eq_secs_iff (hword : s.stalenessSecs ≤ word64) :
    s.stalenessMillis? = some ((s.stalenessSecs : Int) * 1000) ↔
      (s.stalenessSecs : Int) ≤ maxSpanSeconds := by
  rw [stalenessMillis?_eq hword]
  by_cases hshort : (s.stalenessSecs : Int) ≤ maxSpanSeconds
  · exact iff_of_true (if_pos hshort) hshort
  · rw [if_neg hshort]
    split
    · simp only [reduceCtorEq, hshort]
    · simp only [Option.some.injEq, hshort, iff_false]
      omega

theorem stalenessMillis?_eq_none_iff (hword : s.stalenessSecs ≤ word64) :
    s.stalenessMillis? = none ↔
      maxSpanSeconds < s.stalenessSecs ∧ s.stalenessSecs + maxSpanSeconds ≤ word64 := by
  rw [stalenessMillis?_eq hword, ← Int.not_le]
  by_cases hshort : (s.stalenessSecs : Int) ≤ maxSpanSeconds
  · rw [if_pos hshort]
    simp only [hshort, reduceCtorEq, not_true_eq_false, false_and]
  · rw [if_neg hshort]
    split
    next hnone => simp only [hshort, hnone, not_false_eq_true, and_self]
    next hbelow => simp only [hbelow, reduceCtorEq, and_false]

theorem stalenessMillis?_of_greatest (hword : s.stalenessSecs ≤ word64)
    (h : word64 < s.stalenessSecs + maxSpanSeconds) :
    s.stalenessMillis? = some (((s.stalenessSecs : Int) - (word64 + 1)) * 1000) := by
  have hlong : ¬ (s.stalenessSecs : Int) ≤ maxSpanSeconds := by
    unfold maxSpanSeconds word64 at *
    omega
  rw [stalenessMillis?_eq hword, if_neg hlong, if_neg (Int.not_le.2 h)]

/-- Up to the longest span there can be, the staleness is as long as the setting says, and what is
out of date is overdue by more. For a greater word there is no span, unless it is so great that it
is taken for a span below zero. In any case an entry is out of date exactly if the time gone by
since it was due is more than the span. -/
theorem staleness_honored {J : Type} [Schedulable J] (hword : s.stalenessSecs ≤ word64) :
    (s.stalenessMillis? = some ((s.stalenessSecs : Int) * 1000) ↔
      (s.stalenessSecs : Int) ≤ maxSpanSeconds) ∧
    (s.stalenessMillis? = none ↔
      maxSpanSeconds < s.stalenessSecs ∧ s.stalenessSecs + maxSpanSeconds ≤ word64) ∧
    (word64 < s.stalenessSecs + maxSpanSeconds →
      s.stalenessMillis? = some (((s.stalenessSecs : Int) - (word64 + 1)) * 1000)) ∧
    ∀ ms, s.stalenessMillis? = some ms → ∀ a : Agenda J, a.staleness = inNanos ms → ∀ now id t,
      (a.find now id = .outOfDate t ↔ ∃ e, a.entries.get? id = some e ∧ e.next = some t ∧
        inNanos ms < now.since t) ∧
      ((s.stalenessSecs : Int) ≤ maxSpanSeconds → a.find now id = .outOfDate t →
        s.stalenessSecs * nanosPerSecond < now.since t ∧
        (now.nanos < nanosPerSecond → t < now ∧ (t.nanos < nanosPerSecond →
          t.moment + s.stalenessSecs * nanosPerSecond < now.moment))) := by
  refine ⟨stalenessMillis?_eq_secs_iff hword, stalenessMillis?_eq_none_iff hword,
    stalenessMillis?_of_greatest hword, ?_⟩
  intro ms hms a ha now id t
  have hfind : a.find now id = .outOfDate t ↔ ∃ e, a.entries.get? id = some e ∧
      e.next = some t ∧ inNanos ms < now.since t := by
    rw [Agenda.find_eq_outOfDate, ha]
  refine ⟨hfind, ?_⟩
  intro hshort hlate
  rw [(stalenessMillis?_eq_secs_iff hword).2 hshort] at hms
  obtain ⟨e, -, -, hsince⟩ := hfind.1 hlate
  have hgone : s.stalenessSecs * nanosPerSecond < now.since t := by
    rw [← Option.some.inj hms, inNanos] at hsince
    unfold nanosPerSecond
    omega
  have hnonneg : 0 ≤ (s.stalenessSecs : Int) * nanosPerSecond :=
    Int.mul_nonneg (Int.natCast_nonneg _) (Int.natCast_nonneg _)
  refine ⟨hgone, ?_⟩
  intro hnow
  refine ⟨Instant.lt_of_since_pos hnow (Int.lt_of_le_of_lt hnonneg hgone), ?_⟩
  intro ht
  rw [Instant.since_eq hnow ht] at hgone
  exact Int.add_lt_of_lt_sub_left hgone

/-- An agenda with a span for the staleness, into which a job for every second was put half a second
after the start of 1970. -/
def ticking (ms : Int) : Agenda Job :=
  ((Agenda.empty Zone.utc (inNanos ms)).add ⟨0, 500000000⟩ Engine.everySecond.schedule
    Engine.everySecond).toOption.getD default

/-- With the default of five minutes the job, which is due after one second, is not out of date
after 301 seconds, and is so a billionth of a second later. -/
theorem fiveMinutes_honored : stalenessMillis? {} = some 300000 ∧
    (ticking 300000).find ⟨301, 1⟩ "a" = .outOfDate ⟨1, 0⟩ ∧
    ∀ t, (ticking 300000).find ⟨301, 0⟩ "a" ≠ .outOfDate t := by
  have hhonored := staleness_honored (J := Job) (s := {}) (by decide)
  have hmillis : stalenessMillis? {} = some 300000 := hhonored.1.2 (by decide)
  have hfind := hhonored.2.2.2 300000 hmillis (ticking 300000) (by decide +kernel)
  have hentry : ((ticking 300000).entries.get? "a").bind Entry.next = some ⟨1, 0⟩ := by
    decide +kernel
  obtain ⟨e, he, hnext⟩ := Option.bind_eq_some_iff.1 hentry
  refine ⟨hmillis, ?_, ?_⟩
  · exact (hfind _ _ _).1.2 ⟨e, he, hnext, by decide⟩
  · intro t hlate
    obtain ⟨e', he', hnext', hsince⟩ := (hfind _ _ t).1.1 hlate
    cases he.symm.trans he'
    cases hnext.symm.trans hnext'
    revert hsince
    decide

/-- The greatest word is taken for one second below zero, so that what will be due in half a second
is out of date; and with a word a little above the longest span there is no staleness at all. -/
theorem greatest_staleness_misjudged :
    (check { stalenessSecs := word64 }).toOption = some () ∧
    stalenessMillis? { stalenessSecs := word64 } = some (-1000) ∧
    (ticking (-1000)).find ⟨0, 500000000⟩ "a" = .outOfDate ⟨1, 0⟩ ∧
    (check { stalenessSecs := 9223372036854776 }).toOption = some () ∧
    stalenessMillis? { stalenessSecs := 9223372036854776 } = none := by
  refine ⟨?_, ?_, ?_, ?_, ?_⟩ <;> decide +kernel

end Settings

end CronScale
