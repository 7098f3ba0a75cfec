import CronScale.Engine.Basic
import CronScale.Proofs.Schedule.Moments
/-!
# Runs of the engine

A run is a sequence of events at a running engine: calls that change the agenda, turns that the
engine takes, and the passing of time. A call or a turn needs no time. Time passes only while the
engine sleeps, and at most up to the end of its sleep; a change of the agenda ends the sleep at
once. Whether a call at the very moment at which the engine wakes up comes before its turn or after
it is left open.

The invariant of all runs is `Timed.Good`: nothing in the agenda is overdue, and unless it was woken
the engine sleeps no longer than until the first entry is due.
-/

namespace CronScale

open CronScale.Calendar

namespace Engine

/-- Something that happens at a running engine. -/
inductive Event (J : Type) where
  | add (expr : String) (job : J)
  | update (job : J)
  | remove (id : String)
  | turn
  | pass (time : Int)

/-- What the engine does in one turn: the time at which it goes through its agenda and the jobs it
fires. -/
structure Turn (J : Type) where
  time : Int
  fired : List J
  deriving DecidableEq

/-- An engine and the time in billionths of a second. -/
structure Timed (J : Type) where
  now : Int
  engine : Engine J

/-- Whether the engine sleeps at least until a time. -/
def sleepsUntil {J : Type} (e : Engine J) (time : Int) : Bool :=
  match e.loop with
  | .stopped => true
  | .sleeping deadline => !e.woken && time ≤ deadline

namespace Event

variable {J : Type} [Schedulable J]

/-- The job that a call puts into the agenda, and the expression it comes under. -/
def put? : Event J → Option (String × J)
  | .add expr job => some (expr, job)
  | .update job => some (Schedulable.schedule job, job)
  | _ => none

/-- Whether an event takes the entry with an id out of the agenda or puts another in its place. A
call with an expression that cannot be read changes nothing. -/
def displaces (id : String) : Event J → Bool
  | .add expr job => Schedulable.id job == id && Schedule.parses expr
  | .update job => Schedulable.id job == id && Schedule.parses (Schedulable.schedule job)
  | .remove id' => id' == id
  | _ => false

theorem displaces_of_put? {ev : Event J} {expr : String} {job : J} {s : Schedule}
    (h : ev.put? = some (expr, job)) (hparse : Schedule.parse expr = .ok s) :
    ev.displaces (Schedulable.id job) = true := by
  cases ev <;> simp only [put?, Option.some.injEq, Prod.mk.injEq, reduceCtorEq] at h
  · obtain ⟨rfl, rfl⟩ := h
    simp [displaces, Schedule.parses, hparse, Except.isOk, Except.toBool]
  · obtain ⟨rfl, rfl⟩ := h
    simp [displaces, Schedule.parses, hparse, Except.isOk, Except.toBool]

end Event

namespace Timed

variable {J : Type}

/-- An engine that starts with nothing in its agenda. -/
def start (zone : Zone) (staleness time : Int) : Timed J :=
  ⟨time, (Engine.empty zone staleness).start time⟩

variable [Schedulable J]

/-- The time of a wall clock. -/
def instant (w : Timed J) : Instant := Instant.ofNanos w.now

/-- An engine after a call that may be refused. -/
def change (w : Timed J) (e : Except Schedule.ParseError (Engine J)) : Timed J :=
  ⟨w.now, e.toOption.getD w.engine⟩

/-- What an event makes of an engine, and the turns taken in it; nothing if it cannot happen. -/
def step? (w : Timed J) : Event J → Option (Timed J × List (Turn J))
  | .add expr job => some (w.change (w.engine.add w.instant expr job), [])
  | .update job => some (w.change (w.engine.update w.instant job), [])
  | .remove id => some (⟨w.now, w.engine.remove id⟩, [])
  | .turn =>
    let (fired, engine) := w.engine.turn w.now
    some (⟨w.now, engine⟩, [⟨w.now, fired⟩])
  | .pass time =>
    if w.now < time ∧ w.engine.sleepsUntil time then some (⟨time, w.engine⟩, []) else none

/-- What a sequence of events makes of an engine, and all turns taken. -/
def run? : List (Event J) → Timed J → Option (Timed J × List (Turn J))
  | [], w => some (w, [])
  | ev :: evs, w => do
    let (w', turns) ← w.step? ev
    let (w'', more) ← run? evs w'
    pure (w'', turns ++ more)

theorem run?_cons {ev : Event J} {evs : List (Event J)} {w w'' : Timed J} {turns : List (Turn J)} :
    run? (ev :: evs) w = some (w'', turns) ↔
      ∃ w' first more, w.step? ev = some (w', first) ∧ run? evs w' = some (w'', more) ∧
        turns = first ++ more := by
  simp only [run?, bind, Option.bind_eq_some_iff, pure, Option.some.injEq, Prod.mk.injEq,
    Prod.exists]
  constructor
  · rintro ⟨w', first, hstep, v, more, hrun, rfl, rfl⟩
    exact ⟨w', first, more, hstep, hrun, rfl⟩
  · rintro ⟨w', first, more, hstep, hrun, rfl⟩
    exact ⟨w', first, hstep, w'', more, hrun, rfl, rfl⟩

theorem step?_of_put? {ev : Event J} {expr : String} {job : J} (h : ev.put? = some (expr, job))
    (w : Timed J) : w.step? ev = some (w.change (w.engine.add w.instant expr job), []) := by
  cases ev <;> simp only [Event.put?, Option.some.injEq, Prod.mk.injEq, reduceCtorEq] at h
  · obtain ⟨rfl, rfl⟩ := h
    rfl
  · obtain ⟨rfl, rfl⟩ := h
    rfl

end Timed

end Engine

/-! ### Lookups in the agenda -/

namespace Agenda

variable {J : Type}

theorem eq_nil_of_earliestOf {ts : List Instant} (h : earliestOf ts = none) : ts = [] := by
  cases ts with
  | nil => rfl
  | cons a ts =>
    simp only [earliestOf] at h
    split at h <;> exact absurd h (Option.some_ne_none _)

/-- The earliest of some instants is one of them, and none of them is earlier. -/
theorem earliestOf_spec {ts : List Instant} {u : Instant} (h : earliestOf ts = some u) :
    u ∈ ts ∧ ∀ t ∈ ts, u ≤ t := by
  induction ts generalizing u with
  | nil => exact absurd h (Option.some_ne_none u).symm
  | cons a ts ih =>
    simp only [earliestOf] at h
    split at h
    · rename_i hrest
      obtain rfl := Option.some.inj h
      obtain rfl := eq_nil_of_earliestOf hrest
      refine ⟨List.mem_cons_self, fun t ht => ?_⟩
      obtain rfl := List.mem_singleton.1 ht
      exact Instant.le_refl t
    · rename_i v hrest
      obtain rfl := Option.some.inj h
      obtain ⟨hmem, hle⟩ := ih hrest
      unfold Instant.earlier
      by_cases hva : v < a
      · rw [if_pos hva]
        refine ⟨List.mem_cons_of_mem a hmem, fun t ht => ?_⟩
        rcases List.mem_cons.1 ht with rfl | ht
        · exact Instant.le_of_lt hva
        · exact hle t ht
      · rw [if_neg hva]
        refine ⟨List.mem_cons_self, fun t ht => ?_⟩
        rcases List.mem_cons.1 ht with rfl | ht
        · exact Instant.le_refl t
        · exact Instant.le_trans (Instant.le_iff_not_lt.2 hva) (hle t ht)

/-- An entry that has a next time is not due before the earliest time of all. -/
theorem exists_earliest? {a : Agenda J} {id : String} {e : Entry J} {t : Instant}
    (he : a.entries.get? id = some e) (ht : e.next = some t) :
    ∃ u id' e', a.earliest? = some u ∧ a.entries.get? id' = some e' ∧ e'.next = some u ∧ u ≤ t := by
  have hmem : t ∈ a.entries.values.filterMap (·.next) :=
    List.mem_filterMap.2 ⟨e, Table.mem_values.2 ⟨id, he⟩, ht⟩
  cases hu : a.earliest? with
  | none => exact absurd hmem (eq_nil_of_earliestOf hu ▸ List.not_mem_nil)
  | some u =>
    obtain ⟨hu', hle⟩ := earliestOf_spec hu
    obtain ⟨e', he', hnext⟩ := List.mem_filterMap.1 hu'
    obtain ⟨id', hid⟩ := Table.mem_values.1 he'
    exact ⟨u, id', e', rfl, hid, hnext, hle t hmem⟩

variable [Schedulable J]

/-- Whether every entry lies under the id of its job. -/
def Keyed (a : Agenda J) : Prop :=
  ∀ id e, a.entries.get? id = some e → Schedulable.id e.job = id

/-- The jobs taken when the agenda is gone through: of each id at most one, and that if the entry
with that id is due. -/
theorem dispatch_fst_filter {a : Agenda J} (h : a.Keyed) (now : Instant) (id : String) :
    (a.dispatch now).1.filter (Schedulable.id · = id) =
      ((a.entries.get? id).filter (isDue now)).toList.map (·.job) := by
  have hid := Table.filter_values (f := fun e => Schedulable.id e.job) (fun id e he => h id e he) id
  simp only [dispatch]
  rw [List.filter_map, List.filter_filter, Function.comp_def]
  have hcomm : (fun e : Entry J => decide (Schedulable.id e.job = id) && isDue now e) =
      fun e => isDue now e && decide (Schedulable.id e.job = id) := by
    funext e
    rw [Bool.and_comm]
  rw [hcomm, ← List.filter_filter, hid]
  cases a.entries.get? id with
  | none => rfl
  | some e => cases hdue : isDue now e <;> simp [Option.filter, hdue]

theorem get?_dispatch (a : Agenda J) (now : Instant) (id : String) :
    (a.dispatch now).2.entries.get? id =
      (a.entries.get? id).map fun e => if isDue now e then fired a.zone now e else e :=
  Table.get?_map _ _ _

end Agenda

/-! ### The invariant -/

namespace Entry

variable {J : Type} {now : Int} {e : Entry J}

/-- Whether an entry names whole seconds only and is not overdue. -/
structure Sound (now : Int) (e : Entry J) : Prop where
  schedule : e.schedule.OnSecond
  onSecond : ∀ t, e.next = some t → t.OnSecond
  next : ∀ t, e.next = some t → now ≤ t.moment

theorem isDue_iff (h : e.Sound now) {t : Instant} (ht : e.next = some t) :
    Agenda.isDue (Instant.ofNanos now) e = true ↔ t.moment = now := by
  have hle := h.next t ht
  rw [Agenda.isDue, ht]
  simp only [decide_eq_true_eq]
  rw [Instant.le_ofNanos_iff (h.onSecond t ht)]
  omega

theorem isDue_of_next_eq_none (h : e.next = none) (i : Instant) : Agenda.isDue i e = false := by
  rw [Agenda.isDue, h]

/-- An entry with a time that was looked for from the present on. -/
theorem lt_of_nextAfter {s : Schedule} {z : Zone} {t : Instant} (hs : s.OnSecond)
    (h : s.nextAfter z (Instant.ofNanos now) = some t) : t.OnSecond ∧ now < t.moment := by
  have ht := Schedule.onSecond_nextAfter hs h
  exact ⟨ht, (Instant.ofNanos_lt_iff ht).1 (Schedule.lt_of_nextAfter h)⟩

variable [Schedulable J]

/-- What becomes of an entry when the agenda is gone through. -/
theorem sound_dispatch (h : e.Sound now) (z : Zone) :
    let e' := if Agenda.isDue (Instant.ofNanos now) e then Agenda.fired z (Instant.ofNanos now) e
      else e
    e'.Sound now ∧ ∀ t, e'.next = some t → now < t.moment := by
  intro e'
  by_cases hdue : Agenda.isDue (Instant.ofNanos now) e = true
  · have he' : e' = Agenda.fired z (Instant.ofNanos now) e := if_pos hdue
    have hnext : ∀ t, e'.next = some t → t.OnSecond ∧ now < t.moment := by
      intro t ht
      rw [he'] at ht
      simp only [Agenda.fired] at ht
      split at ht
      · exact absurd ht (Option.some_ne_none t).symm
      · exact lt_of_nextAfter h.schedule ht
    refine ⟨⟨he' ▸ h.schedule, fun t ht => (hnext t ht).1, fun t ht => ?_⟩,
      fun t ht => (hnext t ht).2⟩
    exact Int.le_of_lt (hnext t ht).2
  · have he' : e' = e := if_neg hdue
    rw [he']
    refine ⟨h, fun t ht => ?_⟩
    have hle := h.next t ht
    rw [isDue_iff h ht] at hdue
    omega

end Entry

/-- A sleep is never longer than the time up to the instant at which it has to end. -/
theorem idleFor_le {t : Instant} {now : Int} (h : t.OnSecond) (hlt : now < t.moment) :
    now + idleFor (Instant.ofNanos now) (some t) ≤ t.moment := by
  have hsince := Instant.since_ofNanos h hlt
  simp only [idleFor]
  rw [if_neg (by omega)]
  omega

namespace Engine.Timed

variable {J : Type} [Schedulable J]

/-- Whether the engine runs, nothing in the agenda is overdue, and the engine, unless it was woken,
does not sleep past a time at which an entry is due. -/
structure Good (w : Timed J) : Prop where
  keyed : w.engine.agenda.Keyed
  sound : ∀ id e, w.engine.agenda.entries.get? id = some e → e.Sound w.now
  running : ∃ d, w.engine.loop = .sleeping d
  asleep : w.engine.woken = false → ∀ d, w.engine.loop = .sleeping d →
    ∀ id e t, w.engine.agenda.entries.get? id = some e → e.next = some t → d ≤ t.moment

theorem good_start (zone : Zone) (staleness time : Int) :
    (start zone staleness time : Timed J).Good where
  keyed := fun _ _ h => absurd h (by simp [start, Engine.start, Engine.empty, Agenda.empty])
  sound := fun _ _ h => absurd h (by simp [start, Engine.start, Engine.empty, Agenda.empty])
  running := ⟨time, rfl⟩
  asleep := fun _ _ _ _ _ _ h =>
    absurd h (by simp [start, Engine.start, Engine.empty, Agenda.empty])

/-- An engine with a job put into its agenda. -/
def insert (w : Timed J) (expr : String) (job : J) (s : Schedule) : Timed J :=
  let agenda := w.engine.agenda
  let entry : Entry J := ⟨job, expr, s, none, s.nextAfter agenda.zone w.instant⟩
  ⟨w.now, { w.engine with
    agenda := { agenda with entries := agenda.entries.insert (Schedulable.id job) entry }
    woken := true }⟩

/-- All that an event can do to an engine that runs. -/
inductive Step (w : Timed J) : Event J → Timed J → List (Turn J) → Prop
  | put {ev : Event J} {expr : String} {job : J} {s : Schedule} :
      ev.put? = some (expr, job) → Schedule.parse expr = .ok s → Step w ev (w.insert expr job s) []
  | refused {ev : Event J} {expr : String} {job : J} {e : Schedule.ParseError} :
      ev.put? = some (expr, job) → Schedule.parse expr = .error e → Step w ev w []
  | remove (id : String) : Step w (.remove id) ⟨w.now, w.engine.remove id⟩ []
  | sleepOn (deadline : Int) :
      w.engine.loop = .sleeping deadline → w.engine.woken = false → w.now < deadline →
      Step w .turn w [⟨w.now, []⟩]
  | dispatch :
      Step w .turn ⟨w.now, (w.engine.dispatch w.now).2⟩ [⟨w.now, (w.engine.dispatch w.now).1⟩]
  | pass {time : Int} :
      w.now < time → w.engine.sleepsUntil time → Step w (.pass time) ⟨time, w.engine⟩ []

theorem change_add (w : Timed J) (expr : String) (job : J) :
    w.change (w.engine.add w.instant expr job) =
      match Schedule.parse expr with
      | .ok s => w.insert expr job s
      | .error _ => w := by
  simp only [change, Engine.add, Agenda.add, insert]
  cases Schedule.parse expr <;> rfl

theorem step_put {w : Timed J} {ev : Event J} {expr : String} {job : J}
    (h : ev.put? = some (expr, job)) :
    Step w ev (w.change (w.engine.add w.instant expr job)) [] := by
  rw [change_add]
  cases hparse : Schedule.parse expr with
  | ok s => exact .put h hparse
  | error e => exact .refused h hparse

theorem step_of_step? {w w' : Timed J} {ev : Event J} {turns : List (Turn J)}
    (hrun : ∃ d, w.engine.loop = .sleeping d) (h : w.step? ev = some (w', turns)) :
    Step w ev w' turns := by
  cases ev with
  | add expr job =>
    obtain ⟨rfl, rfl⟩ := Prod.mk.inj (Option.some.inj h)
    exact step_put rfl
  | update job =>
    obtain ⟨rfl, rfl⟩ := Prod.mk.inj (Option.some.inj h)
    exact step_put rfl
  | remove id =>
    obtain ⟨rfl, rfl⟩ := Prod.mk.inj (Option.some.inj h)
    exact .remove id
  | turn =>
    have hstep : w.step? .turn =
        some (⟨w.now, (w.engine.turn w.now).2⟩, [⟨w.now, (w.engine.turn w.now).1⟩]) := rfl
    obtain ⟨d, hd⟩ := hrun
    by_cases hturn : (w.engine.woken || d ≤ w.now) = true
    · have hdispatch : w.engine.turn w.now = w.engine.dispatch w.now := by
        rw [Engine.turn, hd]
        exact if_pos hturn
      rw [hstep, hdispatch] at h
      obtain ⟨rfl, rfl⟩ := Prod.mk.inj (Option.some.inj h)
      exact .dispatch
    · have hsleep : w.engine.turn w.now = ([], w.engine) := by
        rw [Engine.turn, hd]
        exact if_neg hturn
      rw [hstep, hsleep] at h
      obtain ⟨rfl, rfl⟩ := Prod.mk.inj (Option.some.inj h)
      simp only [Bool.or_eq_true, decide_eq_true_eq, not_or, Int.not_le] at hturn
      exact .sleepOn d hd (Bool.eq_false_iff.2 hturn.1) hturn.2
  | pass time =>
    simp only [step?] at h
    split at h
    · rename_i hpass
      obtain ⟨rfl, rfl⟩ := Prod.mk.inj (Option.some.inj h)
      exact .pass hpass.1 hpass.2
    · exact absurd h (Option.some_ne_none _).symm

/-! ### Every event keeps the invariant -/

namespace Good

variable {w : Timed J}

theorem insert (h : w.Good) {expr : String} {s : Schedule} (hparse : Schedule.parse expr = .ok s)
    (job : J) : (w.insert expr job s).Good where
  keyed := by
    intro id e he
    simp only [Timed.insert, Table.get?_insert] at he
    split at he
    · obtain rfl := Option.some.inj he
      exact (‹id = _›).symm
    · exact h.keyed id e he
  sound := by
    intro id e he
    simp only [Timed.insert, Table.get?_insert] at he
    split at he
    · obtain rfl := Option.some.inj he
      have hs := Schedule.onSecond_of_parse hparse
      refine ⟨hs, fun t ht => (Entry.lt_of_nextAfter hs ht).1, fun t ht => ?_⟩
      exact Int.le_of_lt (Entry.lt_of_nextAfter hs ht).2
    · exact h.sound id e he
  running := h.running
  asleep := fun hwoken => absurd hwoken (by simp [Timed.insert])

theorem remove (h : w.Good) (id : String) : Good ⟨w.now, w.engine.remove id⟩ := by
  unfold Engine.remove
  split
  · have herase : ∀ id' e, (w.engine.agenda.remove id).entries.get? id' = some e →
        w.engine.agenda.entries.get? id' = some e := by
      intro id' e he
      rw [Agenda.remove, Table.get?_erase] at he
      split at he
      · exact absurd he (Option.some_ne_none e).symm
      · exact he
    exact {
      keyed := fun id' e he => h.keyed id' e (herase id' e he)
      sound := fun id' e he => h.sound id' e (herase id' e he)
      running := h.running
      asleep := fun hwoken => absurd hwoken (by simp) }
  · exact h

/-- After a turn every entry is due later than at that moment. -/
theorem lt_of_dispatch (h : w.Good) {id : String} {e : Entry J} {t : Instant}
    (he : (w.engine.dispatch w.now).2.agenda.entries.get? id = some e) (ht : e.next = some t) :
    w.now < t.moment := by
  simp only [Engine.dispatch, Agenda.get?_dispatch] at he
  obtain ⟨e₀, he₀, rfl⟩ := Option.map_eq_some_iff.1 he
  exact (Entry.sound_dispatch (h.sound id e₀ he₀) _).2 t ht

theorem sound_dispatch (h : w.Good) {id : String} {e : Entry J}
    (he : (w.engine.dispatch w.now).2.agenda.entries.get? id = some e) : e.Sound w.now := by
  simp only [Engine.dispatch, Agenda.get?_dispatch] at he
  obtain ⟨e₀, he₀, rfl⟩ := Option.map_eq_some_iff.1 he
  exact (Entry.sound_dispatch (h.sound id e₀ he₀) _).1

theorem dispatch (h : w.Good) : Good ⟨w.now, (w.engine.dispatch w.now).2⟩ where
  keyed := by
    intro id e he
    simp only [Engine.dispatch, Agenda.get?_dispatch] at he
    obtain ⟨e₀, he₀, rfl⟩ := Option.map_eq_some_iff.1 he
    rw [← h.keyed id e₀ he₀]
    split <;> rfl
  sound := fun _ _ he => h.sound_dispatch he
  running := ⟨_, rfl⟩
  asleep := by
    intro _ d hd id e t he ht
    obtain ⟨u, id', e', hu, he', hu', hle⟩ := Agenda.exists_earliest? he ht
    have hsleep := idleFor_le ((h.sound_dispatch he').onSecond u hu') (h.lt_of_dispatch he' hu')
    have hmoment := Instant.moment_le ((h.sound_dispatch he').onSecond u hu') hle
    have hdeadline : w.now + idleFor (Instant.ofNanos w.now) (some u) = d := by
      rw [← hu]
      exact EngineLoop.sleeping.inj hd
    omega

theorem pass (h : w.Good) {time : Int} (hsleep : w.engine.sleepsUntil time) :
    Good ⟨time, w.engine⟩ where
  keyed := h.keyed
  sound := by
    intro id e he
    obtain ⟨d, hd⟩ := h.running
    simp only [Engine.sleepsUntil, hd, Bool.and_eq_true, Bool.not_eq_true',
      decide_eq_true_eq] at hsleep
    refine ⟨(h.sound id e he).schedule, (h.sound id e he).onSecond, fun t ht => ?_⟩
    exact Int.le_trans hsleep.2 (h.asleep hsleep.1 d hd id e t he ht)
  running := h.running
  asleep := h.asleep

end Good

/-- Every event keeps the invariant. -/
theorem Step.good {w w' : Timed J} {ev : Event J} {turns : List (Turn J)}
    (h : Step w ev w' turns) (hw : w.Good) : w'.Good := by
  cases h with
  | put _ hparse => exact hw.insert hparse _
  | refused _ _ => exact hw
  | remove id => exact hw.remove id
  | sleepOn _ _ _ _ => exact hw
  | dispatch => exact hw.dispatch
  | pass _ hsleep => exact hw.pass hsleep

theorem Step.zone {w w' : Timed J} {ev : Event J} {turns : List (Turn J)}
    (h : Step w ev w' turns) : w'.engine.agenda.zone = w.engine.agenda.zone := by
  cases h with
  | put _ _ => rfl
  | refused _ _ => rfl
  | remove id =>
    simp only [Engine.remove]
    split <;> rfl
  | sleepOn _ _ _ _ => rfl
  | dispatch => rfl
  | pass _ _ => rfl

/-- The invariant holds after every run, and no run changes the zone. -/
theorem good_of_run? {evs : List (Event J)} {w w' : Timed J} {turns : List (Turn J)}
    (hw : w.Good) (h : run? evs w = some (w', turns)) :
    w'.Good ∧ w'.engine.agenda.zone = w.engine.agenda.zone := by
  induction evs generalizing w w' turns with
  | nil =>
    obtain ⟨rfl, _⟩ := Prod.mk.inj (Option.some.inj h)
    exact ⟨hw, rfl⟩
  | cons ev evs ih =>
    obtain ⟨w₁, first, more, hstep, hrun, _⟩ := run?_cons.1 h
    have hstep := step_of_step? hw.running hstep
    obtain ⟨hgood, hzone⟩ := ih (hstep.good hw) hrun
    exact ⟨hgood, hzone.trans hstep.zone⟩

end Engine.Timed

end CronScale
