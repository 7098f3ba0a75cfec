import CronScale.Manager.Basic
import CronScale.Proofs.Engine.Run
/-!
# When a job is fired

A job that is put into the agenda is due at the first time of its schedule after that moment, then
at the first time after that, and so on; a job that runs once is due once. As long as it stays in
the agenda it is fired at exactly these times, whatever else happens to the agenda. At the very
moment at which it is taken out or replaced, it is fired if the engine went through its agenda
before; a call that comes first prevents it.
-/

namespace CronScale

open CronScale.Calendar

namespace Engine

/-- A job put into the agenda of a zone under a schedule at an instant. -/
structure Placement (J : Type) where
  job : J
  schedule : Schedule
  zone : Zone
  start : Instant

namespace Placement

variable {J : Type} [Schedulable J] {p : Placement J}

/-- The times at which a job is due. -/
def due (p : Placement J) : Nat → Option Instant
  | 0 => p.schedule.nextAfter p.zone p.start
  | n + 1 =>
    if Schedulable.runOnce p.job then none else (p.due n).bind (p.schedule.nextAfter p.zone)

theorem exists_nextAfter_of_due {n : Nat} {t : Instant} (ht : p.due n = some t) :
    ∃ i, p.schedule.nextAfter p.zone i = some t := by
  cases n with
  | zero => exact ⟨p.start, ht⟩
  | succ n =>
    simp only [due] at ht
    split at ht
    · exact absurd ht (Option.some_ne_none t).symm
    · obtain ⟨u, _, hu⟩ := Option.bind_eq_some_iff.1 ht
      exact ⟨u, hu⟩

theorem onSecond_due (h : p.schedule.OnSecond) {n : Nat} {t : Instant} (ht : p.due n = some t) :
    t.OnSecond := by
  obtain ⟨i, hi⟩ := exists_nextAfter_of_due ht
  exact Schedule.onSecond_nextAfter h hi

/-- The search for the next due time may start from the last one or from the moment at which a clock
shows it. -/
theorem nextAfter_due (h : p.schedule.OnSecond) {n : Nat} {t : Instant} (ht : p.due n = some t) :
    p.schedule.nextAfter p.zone (Instant.ofNanos t.moment) = p.schedule.nextAfter p.zone t := by
  obtain ⟨i, hi⟩ := exists_nextAfter_of_due ht
  exact Schedule.nextAfter_ofNanos_moment h hi

theorem due_succ (h : p.schedule.OnSecond) {n : Nat} {t : Instant} (ht : p.due (n + 1) = some t) :
    ∃ u, p.due n = some u ∧ u.moment < t.moment := by
  have hsecond := onSecond_due h ht
  simp only [due] at ht
  split at ht
  · exact absurd ht (Option.some_ne_none t).symm
  · obtain ⟨u, hu, hnext⟩ := Option.bind_eq_some_iff.1 ht
    refine ⟨u, hu, ?_⟩
    rw [← nextAfter_due h hu] at hnext
    exact (Instant.ofNanos_lt_iff hsecond).1 (Schedule.lt_of_nextAfter hnext)

/-- The due times follow one another. -/
theorem due_lt (h : p.schedule.OnSecond) {m n : Nat} {t : Instant} (hmn : m < n)
    (ht : p.due n = some t) : ∃ u, p.due m = some u ∧ u.moment < t.moment := by
  induction n generalizing t with
  | zero => omega
  | succ n ih =>
    obtain ⟨u, hu, hlt⟩ := due_succ h ht
    rcases Nat.lt_succ_iff_lt_or_eq.1 hmn with hmn | rfl
    · obtain ⟨v, hv, hvu⟩ := ih hmn hu
      exact ⟨v, hv, by omega⟩
    · exact ⟨u, hu, hlt⟩

end Placement

/-- When jobs with an id are fired in some turns. -/
def firings {J : Type} [Schedulable J] (id : String) (turns : List (Turn J)) : List (Int × J) :=
  turns.flatMap fun τ => (τ.fired.filter (Schedulable.id · = id)).map fun job => (τ.time, job)

section

variable {J : Type} [Schedulable J]

theorem firings_append (id : String) (turns more : List (Turn J)) :
    firings id (turns ++ more) = firings id turns ++ firings id more := by
  simp only [firings, List.flatMap_append]

theorem time_of_mem_firings {id : String} {turns : List (Turn J)} {t : Int} {job : J}
    (h : (t, job) ∈ firings id turns) : ∃ τ ∈ turns, τ.time = t := by
  obtain ⟨τ, hτ, hmem⟩ := List.mem_flatMap.1 h
  obtain ⟨_, _, heq⟩ := List.mem_map.1 hmem
  exact ⟨τ, hτ, (Prod.mk.inj heq).1⟩

theorem firings_singleton {id : String} {τ : Turn J} :
    firings id [τ] = (τ.fired.filter (Schedulable.id · = id)).map fun job => (τ.time, job) := by
  simp only [firings, List.flatMap_cons, List.flatMap_nil, List.append_nil]

/-- The first firings of a placement, if it is fired whenever it is due. -/
def Placement.firstFirings (p : Placement J) (k : Nat) : List (Int × J) :=
  (List.range k).filterMap fun n => (p.due n).map fun t => (t.moment, p.job)

/-- What holds while a placed job stays in the agenda: it was fired at its first due times, of which
there were `k`, and the next one is what the agenda says. A turn at this moment has already taken
what is due now. -/
structure Placement.Tracked (p : Placement J) (w : Timed J) (turns : List (Turn J)) (k : Nat) :
    Prop where
  entry : ∃ e, w.engine.agenda.entries.get? (Schedulable.id p.job) = some e ∧ e.job = p.job ∧
    e.schedule = p.schedule ∧ e.next = p.due k
  zone : w.engine.agenda.zone = p.zone
  fired : firings (Schedulable.id p.job) turns = p.firstFirings k
  past : ∀ n < k, ∀ t, p.due n = some t → t.moment ≤ w.now
  rested : (∃ τ ∈ turns, τ.time = w.now) → ∀ t, p.due k = some t → w.now < t.moment
  times : ∀ τ ∈ turns, τ.time ≤ w.now

namespace Placement

variable {p : Placement J} {w w' : Timed J} {turns more : List (Turn J)} {k : Nat}

theorem tracked_insert (w : Timed J) (expr : String) (job : J) (s : Schedule) :
    let p : Placement J := ⟨job, s, w.engine.agenda.zone, w.instant⟩
    p.Tracked (w.insert expr job s) [] 0 where
  entry := by
    refine ⟨⟨job, expr, s, none, s.nextAfter w.engine.agenda.zone w.instant⟩, ?_, rfl, rfl, rfl⟩
    simp only [Timed.insert, Table.get?_insert, if_true]
  zone := rfl
  fired := rfl
  past := fun _ hn => absurd hn (Nat.not_lt_zero _)
  rested := fun ⟨_, hτ, _⟩ => absurd hτ List.not_mem_nil
  times := fun _ hτ => absurd hτ List.not_mem_nil

/-- A change of the agenda that leaves the entry alone. -/
theorem Tracked.of_get? (h : p.Tracked w turns k) (hnow : w'.now = w.now)
    (hzone : w'.engine.agenda.zone = w.engine.agenda.zone)
    (hget : w'.engine.agenda.entries.get? (Schedulable.id p.job) =
      w.engine.agenda.entries.get? (Schedulable.id p.job)) : p.Tracked w' turns k where
  entry := hget ▸ h.entry
  zone := hzone ▸ h.zone
  fired := h.fired
  past := hnow ▸ h.past
  rested := hnow ▸ h.rested
  times := hnow ▸ h.times

theorem Tracked.pass (h : p.Tracked w turns k) {time : Int} (hlt : w.now < time) :
    p.Tracked ⟨time, w.engine⟩ turns k where
  entry := h.entry
  zone := h.zone
  fired := h.fired
  past := fun n hn t ht => Int.le_trans (h.past n hn t ht) (Int.le_of_lt hlt)
  rested := by
    rintro ⟨τ, hτ, htime⟩
    have := h.times τ hτ
    simp only at htime
    omega
  times := fun τ hτ => Int.le_trans (h.times τ hτ) (Int.le_of_lt hlt)

/-- A turn in which the job is not fired. -/
theorem Tracked.turn (h : p.Tracked w turns k) {fired : List J} {engine : Engine J}
    (hget : engine.agenda.entries.get? (Schedulable.id p.job) =
      w.engine.agenda.entries.get? (Schedulable.id p.job))
    (hzone : engine.agenda.zone = w.engine.agenda.zone)
    (hfired : fired.filter (Schedulable.id · = Schedulable.id p.job) = [])
    (hnext : ∀ t, p.due k = some t → w.now < t.moment) :
    p.Tracked ⟨w.now, engine⟩ (turns ++ [⟨w.now, fired⟩]) k where
  entry := hget ▸ h.entry
  zone := hzone ▸ h.zone
  fired := by
    rw [firings_append, firings_singleton, hfired, h.fired]
    exact List.append_nil _
  past := h.past
  rested := fun _ => hnext
  times := by
    intro τ hτ
    rcases List.mem_append.1 hτ with hτ | hτ
    · exact h.times τ hτ
    · obtain rfl := List.mem_singleton.1 hτ
      exact Int.le_refl _

theorem firstFirings_succ {t : Instant} (ht : p.due k = some t) :
    p.firstFirings (k + 1) = p.firstFirings k ++ [(t.moment, p.job)] := by
  simp only [firstFirings, List.range_succ, List.filterMap_append, List.filterMap_cons, ht,
    Option.map_some, List.filterMap_nil]

/-- A turn in which the job is fired. -/
theorem Tracked.dispatch_due (h : p.Tracked w turns k) (hw : w.Good)
    (hs : p.schedule.OnSecond) {t : Instant} (ht : p.due k = some t) (hdue : t.moment = w.now) :
    p.Tracked ⟨w.now, (w.engine.dispatch w.now).2⟩
      (turns ++ [⟨w.now, (w.engine.dispatch w.now).1⟩]) (k + 1) := by
  obtain ⟨e, he, hjob, hschedule, hnext⟩ := h.entry
  have hisDue : Agenda.isDue (Instant.ofNanos w.now) e = true :=
    (Entry.isDue_iff (hw.sound _ e he) (hnext.trans ht)).2 hdue
  -- The job runs again, if at all, at the next due time after this one.
  have hfired : (Agenda.fired w.engine.agenda.zone (Instant.ofNanos w.now) e).next =
      p.due (k + 1) := by
    simp only [Agenda.fired, due, ht, hjob, hschedule, h.zone, Option.bind_some, ← hdue,
      nextAfter_due hs ht]
  have hget : (w.engine.dispatch w.now).2.agenda.entries.get? (Schedulable.id p.job) =
      some (Agenda.fired w.engine.agenda.zone (Instant.ofNanos w.now) e) := by
    simp only [Engine.dispatch, Agenda.get?_dispatch, he, Option.map_some, hisDue, if_true]
  refine ⟨⟨_, hget, hjob, hschedule, hfired⟩, h.zone, ?_, ?_, ?_, ?_⟩
  · rw [firings_append, firings_singleton, h.fired, firstFirings_succ ht]
    simp only [Engine.dispatch, Agenda.dispatch_fst_filter hw.keyed, he, Option.filter, hisDue,
      if_true, Option.toList_some, List.map_cons, List.map_nil, hjob, hdue]
  · intro n hn u hu
    rcases Nat.lt_succ_iff_lt_or_eq.1 hn with hn | rfl
    · exact h.past n hn u hu
    · obtain rfl := Option.some.inj (ht.symm.trans hu)
      exact Int.le_of_eq hdue
  · intro _ u hu
    exact hw.lt_of_dispatch hget (hfired.trans hu)
  · intro τ hτ
    rcases List.mem_append.1 hτ with hτ | hτ
    · exact h.times τ hτ
    · obtain rfl := List.mem_singleton.1 hτ
      exact Int.le_refl _

/-- A turn at a moment at which the job is not due. -/
theorem Tracked.dispatch_early (h : p.Tracked w turns k) (hw : w.Good)
    (hdue : ∀ t, p.due k = some t → t.moment ≠ w.now) :
    p.Tracked ⟨w.now, (w.engine.dispatch w.now).2⟩
      (turns ++ [⟨w.now, (w.engine.dispatch w.now).1⟩]) k := by
  obtain ⟨e, he, _, _, hnext⟩ := h.entry
  have hisDue : Agenda.isDue (Instant.ofNanos w.now) e = false := by
    cases ht : e.next with
    | none => exact Entry.isDue_of_next_eq_none ht _
    | some t =>
      rw [Bool.eq_false_iff]
      exact fun hd => hdue t (hnext ▸ ht) ((Entry.isDue_iff (hw.sound _ e he) ht).1 hd)
  refine h.turn ?_ rfl ?_ fun t ht => ?_
  · simp only [Engine.dispatch, Agenda.get?_dispatch, he, Option.map_some, hisDue]
    rfl
  · simp only [Engine.dispatch, Agenda.dispatch_fst_filter hw.keyed, he, Option.filter, hisDue]
    rfl
  · have hle := (hw.sound _ e he).next t (hnext.trans ht)
    have hne := hdue t ht
    omega

/-- An event that does not displace the entry at most fires its job, and that when it is due. -/
theorem Tracked.step (h : p.Tracked w turns k) (hw : w.Good) (hs : p.schedule.OnSecond)
    {ev : Event J} (hstep : Timed.Step w ev w' more)
    (hkept : ev.displaces (Schedulable.id p.job) = false) :
    ∃ k', p.Tracked w' (turns ++ more) k' := by
  cases hstep with
  | @put _ expr job s hput hparse =>
    rw [List.append_nil]
    refine ⟨k, h.of_get? rfl rfl ?_⟩
    have hne : Schedulable.id p.job ≠ Schedulable.id job := fun heq =>
      absurd (Event.displaces_of_put? hput hparse) (heq ▸ by simp [hkept])
    simp only [Timed.insert, Table.get?_insert, hne, if_false]
  | refused _ _ =>
    rw [List.append_nil]
    exact ⟨k, h⟩
  | remove id =>
    have hne : Schedulable.id p.job ≠ id := fun heq => by simp [Event.displaces, heq] at hkept
    rw [List.append_nil]
    refine ⟨k, h.of_get? rfl ?_ ?_⟩
    · simp only [Engine.remove]
      split <;> rfl
    · simp only [Engine.remove]
      split
      · simp only [Agenda.remove, Table.get?_erase, hne, if_false]
      · rfl
  | sleepOn deadline hloop hwoken hlt =>
    obtain ⟨e, he, _, _, hnext⟩ := h.entry
    refine ⟨k, h.turn rfl rfl rfl fun t ht => ?_⟩
    exact Int.lt_of_lt_of_le hlt (hw.asleep hwoken deadline hloop _ e t he (hnext.trans ht))
  | dispatch =>
    by_cases hdue : ∃ t, p.due k = some t ∧ t.moment = w.now
    · obtain ⟨t, ht, hmoment⟩ := hdue
      exact ⟨k + 1, h.dispatch_due hw hs ht hmoment⟩
    · exact ⟨k, h.dispatch_early hw fun t ht hmoment => hdue ⟨t, ht, hmoment⟩⟩
  | pass hlt _ =>
    rw [List.append_nil]
    exact ⟨k, h.pass hlt⟩

/-- As long as its entry is not displaced, a job is fired at its first due times. -/
theorem Tracked.run (h : p.Tracked w turns k) (hw : w.Good) (hs : p.schedule.OnSecond)
    {evs : List (Event J)} (hrun : Timed.run? evs w = some (w', more))
    (hkept : ∀ ev ∈ evs, ev.displaces (Schedulable.id p.job) = false) :
    ∃ k', p.Tracked w' (turns ++ more) k' := by
  induction evs generalizing w turns more k with
  | nil =>
    obtain ⟨rfl, rfl⟩ := Prod.mk.inj (Option.some.inj hrun)
    exact ⟨k, by rwa [List.append_nil]⟩
  | cons ev evs ih =>
    obtain ⟨w₁, first, rest, hstep, hrest, rfl⟩ := Timed.run?_cons.1 hrun
    have hstep := Timed.step_of_step? hw.running hstep
    obtain ⟨k₁, h₁⟩ := h.step hw hs hstep (hkept ev List.mem_cons_self)
    rw [← List.append_assoc]
    exact ih h₁ (hstep.good hw) hrest fun ev' hev => hkept ev' (List.mem_cons_of_mem ev hev)

/-- The moments at which a tracked job was fired. -/
theorem Tracked.mem_firings_iff (h : p.Tracked w turns k) (hs : p.schedule.OnSecond)
    (hw : w.Good) {t : Int} {job : J} :
    (t, job) ∈ firings (Schedulable.id p.job) turns ↔
      job = p.job ∧ ∃ n r, p.due n = some r ∧ r.moment = t ∧
        (t < w.now ∨ t = w.now ∧ ∃ τ ∈ turns, τ.time = w.now) := by
  constructor
  · intro hmem
    obtain ⟨τ, hτ, htime⟩ := time_of_mem_firings hmem
    rw [h.fired, firstFirings] at hmem
    obtain ⟨n, hn, hfire⟩ := List.mem_filterMap.1 hmem
    obtain ⟨r, hr, heq⟩ := Option.map_eq_some_iff.1 hfire
    obtain ⟨rfl, rfl⟩ := Prod.mk.inj heq
    have hle := h.past n (List.mem_range.1 hn) r hr
    refine ⟨rfl, n, r, hr, rfl, ?_⟩
    rcases Int.lt_or_eq_of_le hle with hlt | heq
    · exact .inl hlt
    · exact .inr ⟨heq, τ, hτ, htime.trans heq⟩
  · rintro ⟨rfl, n, r, hr, rfl, hover⟩
    -- A due time that is over comes before the next one.
    have hn : n < k := by
      refine Nat.lt_of_not_le fun hkn => ?_
      obtain ⟨u, hu, hur⟩ : ∃ u, p.due k = some u ∧ u.moment ≤ r.moment := by
        rcases Nat.lt_or_eq_of_le hkn with hlt | rfl
        · obtain ⟨u, hu, hlt⟩ := due_lt hs hlt hr
          exact ⟨u, hu, Int.le_of_lt hlt⟩
        · exact ⟨r, hr, Int.le_refl _⟩
      obtain ⟨e, he, _, _, hnext⟩ := h.entry
      have hle := (hw.sound _ e he).next u (hnext.trans hu)
      rcases hover with hlt | ⟨heq, hturn⟩
      · omega
      · have := h.rested hturn u hu
        omega
    rw [h.fired, firstFirings]
    exact List.mem_filterMap.2 ⟨n, List.mem_range.2 hn, by rw [hr]; rfl⟩

/-- The moments at which a tracked job was fired, in order and each once. -/
theorem Tracked.pairwise_firings (h : p.Tracked w turns k) (hs : p.schedule.OnSecond) :
    ((firings (Schedulable.id p.job) turns).map Prod.fst).Pairwise (· < ·) := by
  rw [h.fired, firstFirings, List.pairwise_map, List.pairwise_filterMap]
  refine List.pairwise_lt_range.imp ?_
  rintro m n hmn a ha b hb
  obtain ⟨r, hr, rfl⟩ := Option.map_eq_some_iff.1 ha
  obtain ⟨q, hq, rfl⟩ := Option.map_eq_some_iff.1 hb
  obtain ⟨u, hu, hlt⟩ := due_lt hs hmn hq
  obtain rfl := Option.some.inj (hr.symm.trans hu)
  exact hlt

end Placement

/-! ### After an entry was taken out -/

namespace Timed

variable {w w' : Timed J} {turns : List (Turn J)} {id : String}

/-- Nothing is fired under an id that the agenda does not have, and an event that does not put in a
job with that id does not change this. -/
theorem Step.absent {ev : Event J} (hstep : Step w ev w' turns) (hw : w.Good)
    (habsent : w.engine.agenda.entries.get? id = none)
    (hev : ∀ expr job, ev.put? = some (expr, job) → Schedulable.id job ≠ id) :
    w'.engine.agenda.entries.get? id = none ∧ firings id turns = [] := by
  cases hstep with
  | @put _ expr job s hput hparse =>
    have hne := (hev expr job hput).symm
    simp only [Timed.insert, Table.get?_insert, hne, if_false]
    exact ⟨habsent, rfl⟩
  | refused _ _ => exact ⟨habsent, rfl⟩
  | remove id' =>
    refine ⟨?_, rfl⟩
    simp only [Engine.remove]
    split
    · simp only [Agenda.remove, Table.get?_erase, habsent, ite_self]
    · exact habsent
  | sleepOn _ _ _ _ => exact ⟨habsent, rfl⟩
  | dispatch =>
    constructor
    · simp only [Engine.dispatch, Agenda.get?_dispatch, habsent, Option.map_none]
    · rw [firings_singleton]
      simp only [Engine.dispatch, Agenda.dispatch_fst_filter hw.keyed, habsent]
      rfl
  | pass _ _ => exact ⟨habsent, rfl⟩

theorem firings_of_absent {evs : List (Event J)} (hw : w.Good)
    (habsent : w.engine.agenda.entries.get? id = none) (hrun : run? evs w = some (w', turns))
    (hevs : ∀ ev ∈ evs, ∀ expr job, ev.put? = some (expr, job) → Schedulable.id job ≠ id) :
    firings id turns = [] := by
  induction evs generalizing w turns with
  | nil =>
    obtain ⟨_, rfl⟩ := Prod.mk.inj (Option.some.inj hrun)
    rfl
  | cons ev evs ih =>
    obtain ⟨w₁, first, rest, hstep, hrest, rfl⟩ := run?_cons.1 hrun
    have hstep := step_of_step? hw.running hstep
    obtain ⟨h₁, hfirst⟩ := hstep.absent hw habsent (hevs ev List.mem_cons_self)
    rw [firings_append, hfirst, ih (hstep.good hw) h₁ hrest
      fun ev' hev => hevs ev' (List.mem_cons_of_mem ev hev)]
    rfl

omit [Schedulable J] in
theorem absent_remove (w : Timed J) (id : String) :
    (w.engine.remove id).agenda.entries.get? id = none := by
  simp only [Engine.remove]
  split
  · simp only [Agenda.remove, Table.get?_erase, if_true]
  · rename_i hcontains
    simpa [Table.contains] using hcontains

end Timed

/-- A job that is put into the agenda of a running engine is fired at the times of its schedule,
each once and no others, for as long as no call takes its entry out or replaces it. Up to the end of
that time these are all its due times; at the end itself the job is fired if it is due and the
engine went through its agenda before. Once the entry was taken out, nothing is fired under its id
before a job is put in under that id again. -/
theorem fired_exactly_when_due {zone : Zone} {staleness time : Int}
    {before during : List (Event J)} {put : Event J} {expr : String} {job : J} {s : Schedule}
    {w₁ w₂ : Timed J} {earlier turns : List (Turn J)}
    (hbefore : Timed.run? before (Timed.start zone staleness time) = some (w₁, earlier))
    (hput : put.put? = some (expr, job)) (hparse : Schedule.parse expr = .ok s)
    (hduring : Timed.run? (put :: during) w₁ = some (w₂, turns))
    (hkept : ∀ ev ∈ during, ev.displaces (Schedulable.id job) = false) :
    ((firings (Schedulable.id job) turns).map Prod.fst).Pairwise (· < ·) ∧
    (∀ t job', (t, job') ∈ firings (Schedulable.id job) turns ↔
      job' = job ∧ ∃ n r, Placement.due ⟨job, s, zone, w₁.instant⟩ n = some r ∧ r.moment = t ∧
        (t < w₂.now ∨ t = w₂.now ∧ ∃ τ ∈ turns, τ.time = w₂.now)) ∧
    ∀ after w₃ later,
      Timed.run? (.remove (Schedulable.id job) :: after) w₂ = some (w₃, later) →
      (∀ ev ∈ after, ∀ expr' job', ev.put? = some (expr', job') →
        Schedulable.id job' ≠ Schedulable.id job) →
      firings (Schedulable.id job) later = [] := by
  obtain ⟨hw₁, hzone⟩ := Timed.good_of_run? (Timed.good_start zone staleness time) hbefore
  obtain ⟨hw₂, _⟩ := Timed.good_of_run? hw₁ hduring
  have hs := Schedule.onSecond_of_parse hparse
  have hp : (⟨job, s, w₁.engine.agenda.zone, w₁.instant⟩ : Placement J) =
      ⟨job, s, zone, w₁.instant⟩ := by
    rw [hzone]
    rfl
  obtain ⟨w, first, rest, hstep, hrest, rfl⟩ := Timed.run?_cons.1 hduring
  rw [Timed.step?_of_put? hput, Timed.change_add, hparse] at hstep
  obtain ⟨rfl, rfl⟩ := Prod.mk.inj (Option.some.inj hstep)
  obtain ⟨k, htracked⟩ :=
    (Placement.tracked_insert w₁ expr job s).run (hw₁.insert hparse job) hs hrest hkept
  rw [hp] at htracked
  refine ⟨htracked.pairwise_firings hs, fun t job' => htracked.mem_firings_iff hs hw₂, ?_⟩
  intro after w₃ later hafter hlater
  obtain ⟨w₂', first', rest', hremove, hrun, rfl⟩ := Timed.run?_cons.1 hafter
  obtain ⟨rfl, rfl⟩ := Prod.mk.inj (Option.some.inj hremove)
  exact Timed.firings_of_absent (hw₂.remove _) (Timed.absent_remove w₂ _) hrun hlater

end

/-- A job for every second. -/
def everySecond : Job := { (default : Job) with id := "a", schedule := "* * * * * *" }

/-- The schedule of that job. -/
def wheneverSecond : Schedule :=
  .recurring
    { seconds := List.range 60, minutes := List.range 60, hours := List.range 24
      daysOfMonth := (List.range 32).tail, months := (List.range 13).tail
      daysOfWeek := List.range 7, anyDayOfMonth := true, anyDayOfWeek := true }

theorem everySecond_fired :
    ∃ w turns,
      Timed.run? [.add everySecond.schedule everySecond, .turn, .pass 1000000000, .turn,
        .pass 1500000000] (Timed.start Zone.utc 0 0) = some (w, turns) ∧
      (1000000000, everySecond) ∈ firings everySecond.id turns := by
  have hrun : (Timed.run? [.add everySecond.schedule everySecond, .turn, .pass 1000000000, .turn,
      .pass 1500000000] (Timed.start Zone.utc 0 0)).map (·.1.now) = some 1500000000 := by
    decide +kernel
  obtain ⟨⟨w, turns⟩, hrun, hnow⟩ := Option.map_eq_some_iff.1 hrun
  have hparse : (Schedule.parse everySecond.schedule).toOption = some wheneverSecond := by
    decide +kernel
  refine ⟨w, turns, hrun, ?_⟩
  have hbefore : Timed.run? [] (Timed.start Zone.utc 0 0 : Timed Job) =
      some (Timed.start Zone.utc 0 0, []) := rfl
  refine ((fired_exactly_when_due hbefore rfl (eq_ok_of_toOption hparse) hrun
    (by decide)).2.1 _ _).2 ⟨rfl, 0, ⟨1, 0⟩, ?_, ?_, ?_⟩
  · decide +kernel
  · decide
  · exact .inl (by simp only at hnow; omega)

/-- A job taken out at the very moment at which it is due, after the turn that the engine takes at
that moment: it was fired then, and not only strictly before the moment at which it was taken
out. -/
theorem everySecond_fired_at_removal :
    (Timed.run? [.add everySecond.schedule everySecond, .turn, .pass 1000000000, .turn,
      .remove everySecond.id] (Timed.start Zone.utc 0 0)).map
        (fun r => (r.1.now, firings everySecond.id r.2, r.1.engine.has everySecond.id)) =
      some (1000000000, [(1000000000, everySecond)], false) := by
  decide +kernel

end Engine

end CronScale
