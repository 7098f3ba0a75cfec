import CronScale.Proofs.Engine.Firing
/-!
# Calls to the engine at any times

Here nothing is known about the clock: between two calls it may stand still, run on for years or be
put back. What an entry says of itself stays in agreement whatever is called (`Entry.Coherent`), and
each time the agenda is gone through exactly the entries that are due are fired, once each. A time
that the clock has passed over is not made up for, and after a fall of the clock an entry waits for
the next time that it already has.
-/

namespace CronScale

open CronScale.Calendar

/-- Whether the parts of an entry agree with one another. -/
structure Entry.Coherent {J : Type} [Schedulable J] (e : Entry J) : Prop where
  parsed : Schedule.parse e.expr = .ok e.schedule
  onSecond : ∀ t, e.next = some t → t.OnSecond
  ordered : ∀ p t, e.prev = some p → e.next = some t → p < t
  dormant : Schedulable.runOnce e.job = true → e.prev ≠ none → e.next = none

/-- An entry that was due is coherent afterwards: what it is next due at comes after the present,
and what it was due at does not. -/
theorem Entry.Coherent.fired {J : Type} [Schedulable J] {e : Entry J} {now : Instant}
    (h : e.Coherent) (zone : Zone) (hdue : Agenda.isDue now e = true) :
    (Agenda.fired zone now e).Coherent where
  parsed := h.parsed
  onSecond := by
    intro t ht
    simp only [Agenda.fired] at ht
    split at ht
    · exact absurd ht (Option.some_ne_none t).symm
    · exact Schedule.onSecond_nextAfter (Schedule.onSecond_of_parse h.parsed) ht
  ordered := by
    intro p t hp ht
    simp only [Agenda.fired] at hp ht
    have hle : p ≤ now := by simpa only [Agenda.isDue, hp, decide_eq_true_eq] using hdue
    split at ht
    · exact absurd ht (Option.some_ne_none t).symm
    · have hlt := Schedule.lt_of_nextAfter ht
      exact Instant.lt_of_le_of_lt hle hlt
  dormant := fun hrunOnce _ => if_pos hrunOnce

namespace Agenda

variable {J : Type} [Schedulable J] {a a' : Agenda J}

/-- Whether every entry is coherent and lies under the id of its job. -/
structure Coherent (a : Agenda J) : Prop where
  keyed : a.Keyed
  entry : ∀ id e, a.entries.get? id = some e → e.Coherent

theorem coherent_empty (zone : Zone) (staleness : Int) : (empty zone staleness : Agenda J).Coherent
    where
  keyed := fun _ e he => absurd he (Option.some_ne_none e).symm
  entry := fun _ e he => absurd he (Option.some_ne_none e).symm

theorem Coherent.add (h : a.Coherent) {now : Instant} {expr : String} {job : J}
    (hadd : a.add now expr job = .ok a') : a'.Coherent := by
  unfold Agenda.add at hadd
  split at hadd
  · exact absurd hadd (by simp)
  rename_i s hparse
  obtain rfl := Except.ok.inj hadd
  refine ⟨fun id e he => ?_, fun id e he => ?_⟩ <;> rw [Table.get?_insert] at he <;> split at he
  · obtain rfl := Option.some.inj he
    exact (‹id = _›).symm
  · exact h.keyed id e he
  · obtain rfl := Option.some.inj he
    exact ⟨hparse, fun t => Schedule.onSecond_nextAfter (Schedule.onSecond_of_parse hparse),
      fun p _ hp => absurd hp (Option.some_ne_none p).symm, fun _ hne => absurd rfl hne⟩
  · exact h.entry id e he

theorem Coherent.remove (h : a.Coherent) (id : String) : (a.remove id).Coherent := by
  have hkept : ∀ id' e, (a.remove id).entries.get? id' = some e → a.entries.get? id' = some e := by
    intro id' e he
    rw [Agenda.remove, Table.get?_erase] at he
    split at he
    · exact absurd he (Option.some_ne_none e).symm
    · exact he
  exact ⟨fun id' e he => h.keyed id' e (hkept id' e he),
    fun id' e he => h.entry id' e (hkept id' e he)⟩

theorem Coherent.dispatch (h : a.Coherent) (now : Instant) : (a.dispatch now).2.Coherent := by
  refine ⟨fun id e he => ?_, fun id e he => ?_⟩ <;> rw [get?_dispatch] at he <;>
    obtain ⟨e₀, he₀, rfl⟩ := Option.map_eq_some_iff.1 he
  · rw [← h.keyed id e₀ he₀]
    split <;> rfl
  · split
    · rename_i hdue
      exact (h.entry id e₀ he₀).fired a.zone hdue
    · exact h.entry id e₀ he₀

/-- A job is taken exactly if it is the job of an entry that is due. -/
theorem mem_dispatch {now : Instant} {job : J} :
    job ∈ (a.dispatch now).1 ↔ ∃ id e t, a.entries.get? id = some e ∧ e.job = job ∧
      e.next = some t ∧ t ≤ now := by
  simp only [Agenda.dispatch, List.mem_map, List.mem_filter, Table.mem_values]
  constructor
  · rintro ⟨e, ⟨⟨id, he⟩, hdue⟩, rfl⟩
    cases ht : e.next with
    | none => simp [isDue, ht] at hdue
    | some t =>
      exact ⟨id, e, t, he, rfl, ht, by simpa only [isDue, ht, decide_eq_true_eq] using hdue⟩
  · rintro ⟨id, e, t, he, rfl, ht, hle⟩
    exact ⟨e, ⟨⟨id, he⟩, by simpa only [isDue, ht, decide_eq_true_eq] using hle⟩, rfl⟩

theorem Coherent.nodup_dispatch (h : a.Coherent) (now : Instant) :
    ((a.dispatch now).1.map Schedulable.id).Nodup := by
  have hids : a.entries.values.map (fun e => Schedulable.id e.job) = a.entries.keys :=
    Table.values_map h.keyed
  have hsub : ((a.dispatch now).1.map Schedulable.id).Sublist a.entries.keys := by
    rw [← hids]
    simp only [Agenda.dispatch, List.map_map]
    exact List.filter_sublist.map _
  exact hsub.nodup a.entries.distinct

/-- An entry whose job is taken remembers what it was due at. -/
theorem Coherent.marked_dispatch (h : a.Coherent) {now : Instant} {job : J}
    (hjob : job ∈ (a.dispatch now).1) :
    ∃ e, (a.dispatch now).2.entries.get? (Schedulable.id job) = some e ∧ e.job = job ∧
      e.prev ≠ none := by
  obtain ⟨id, e, t, he, rfl, ht, hle⟩ := mem_dispatch.1 hjob
  have hdue : isDue now e = true := by simpa only [isDue, ht, decide_eq_true_eq] using hle
  refine ⟨fired a.zone now e, ?_, rfl, ?_⟩
  · simp only [h.keyed id e he, get?_dispatch, he, Option.map_some, hdue, if_true]
  · simp only [fired, ht]
    exact Option.some_ne_none t

/-- After the agenda was gone through nothing in it is due. -/
theorem lt_of_get?_dispatch {now : Instant} {id : String} {e : Entry J} {t : Instant}
    (he : (a.dispatch now).2.entries.get? id = some e) (ht : e.next = some t) : now < t := by
  rw [get?_dispatch] at he
  obtain ⟨e₀, _, rfl⟩ := Option.map_eq_some_iff.1 he
  split at ht
  · simp only [fired] at ht
    split at ht
    · exact absurd ht (Option.some_ne_none t).symm
    · exact Schedule.lt_of_nextAfter ht
  · rename_i hdue
    simp only [isDue, ht, decide_eq_true_eq, Instant.le_iff_not_lt, Decidable.not_not] at hdue
    exact hdue

end Agenda

/-- The sleep up to an instant that is still to come is a proper one. -/
theorem idleFor_mem {now : Int} {next : Option Instant}
    (h : ∀ t, next = some t → t.OnSecond ∧ now < t.moment) :
    0 < idleFor (Instant.ofNanos now) next ∧ idleFor (Instant.ofNanos now) next ≤ maxIdle := by
  have hmax : 0 < maxIdle := by decide
  cases next with
  | none => exact ⟨hmax, Int.le_refl _⟩
  | some t =>
    obtain ⟨hsecond, hlt⟩ := h t rfl
    have hsince := Instant.since_ofNanos hsecond hlt
    simp only [idleFor]
    rw [if_neg (by omega)]
    omega

namespace Engine

variable {J : Type}

theorem get?_remove (e : Engine J) (id : String) : (e.remove id).agenda.entries.get? id = none := by
  simp only [remove]
  split
  · simp only [Agenda.remove, Table.get?_erase, if_true]
  · rename_i habsent
    exact Option.not_isSome_iff_eq_none.1 habsent

variable [Schedulable J]

/-- A call to an engine. -/
inductive Call (J : Type) where
  | add (expr : String) (job : J)
  | update (job : J)
  | remove (id : String)
  | dispatch

namespace Call

/-- The job that a call asks to put into the agenda, and the expression it comes under. -/
def put? : Call J → Option (String × J)
  | add expr job => some (expr, job)
  | update job => some (Schedulable.schedule job, job)
  | _ => none

/-- Whether a call puts a job with an id into the agenda. -/
def puts (id : String) (c : Call J) : Bool :=
  match c.put? with
  | some (expr, job) => Schedulable.id job == id && Schedule.parses expr
  | none => false

/-- The engine after a call at a time; a call that is refused leaves it as it is. -/
def after (e : Engine J) (now : Int) : Call J → Engine J
  | add expr job => (e.add (Instant.ofNanos now) expr job).toOption.getD e
  | update job => (e.update (Instant.ofNanos now) job).toOption.getD e
  | remove id => e.remove id
  | dispatch => (e.dispatch now).2

theorem after_of_put? {c : Call J} {expr : String} {job : J} (h : c.put? = some (expr, job))
    (e : Engine J) (now : Int) :
    c.after e now = (e.add (Instant.ofNanos now) expr job).toOption.getD e := by
  cases c <;> simp only [put?, Option.some.injEq, Prod.mk.injEq, reduceCtorEq] at h
  · obtain ⟨rfl, rfl⟩ := h
    rfl
  · obtain ⟨rfl, rfl⟩ := h
    rfl

/-- A call that comes with an expression that cannot be read is refused and changes nothing. -/
theorem after_of_not_parses {c : Call J} {expr : String} {job : J}
    (h : c.put? = some (expr, job)) (hparses : Schedule.parses expr = false) (e : Engine J)
    (now : Int) : c.after e now = e := by
  rw [after_of_put? h, Engine.add, Agenda.add]
  unfold Schedule.parses at hparses
  cases hparse : Schedule.parse expr with
  | ok s => simp [hparse, Except.isOk, Except.toBool] at hparses
  | error _ => rfl

/-- A call that comes with an expression that can be read puts the job into the agenda. -/
theorem add_of_parses {c : Call J} {expr : String} {job : J} (h : c.put? = some (expr, job))
    (hparses : Schedule.parses expr = true) (e : Engine J) (now : Int) :
    e.agenda.add (Instant.ofNanos now) expr job = .ok (c.after e now).agenda := by
  rw [after_of_put? h, Engine.add, Agenda.add]
  unfold Schedule.parses at hparses
  cases hparse : Schedule.parse expr with
  | ok s => rfl
  | error _ => simp [hparse, Except.isOk, Except.toBool] at hparses

theorem agenda_remove (e : Engine J) (id : String) (now : Int) :
    (after e now (.remove id)).agenda = e.agenda ∨
      (after e now (.remove id)).agenda = e.agenda.remove id := by
  simp only [after, Engine.remove]
  split
  · exact .inr rfl
  · exact .inl rfl

/-- Every call keeps the agenda coherent. -/
theorem coherent {e : Engine J} (h : e.agenda.Coherent) (now : Int) (c : Call J) :
    (c.after e now).agenda.Coherent := by
  have hput : ∀ expr job, c.put? = some (expr, job) → (c.after e now).agenda.Coherent := by
    intro expr job hput
    cases hparses : Schedule.parses expr with
    | true => exact h.add (add_of_parses hput hparses e now)
    | false => rwa [after_of_not_parses hput hparses]
  cases c with
  | add expr job => exact hput expr job rfl
  | update job => exact hput _ job rfl
  | remove id =>
    rcases agenda_remove e id now with heq | heq
    · rwa [heq]
    · rw [heq]
      exact h.remove id
  | dispatch => exact h.dispatch _

/-- What is not in the agenda gets there only by a call that puts it there. -/
theorem get?_eq_none {e : Engine J} {id : String} (h : e.agenda.entries.get? id = none) (now : Int)
    {c : Call J} (hc : c.puts id = false) : (c.after e now).agenda.entries.get? id = none := by
  have hput : ∀ expr job, c.put? = some (expr, job) →
      (c.after e now).agenda.entries.get? id = none := by
    intro expr job hput
    cases hparses : Schedule.parses expr with
    | false => rwa [after_of_not_parses hput hparses]
    | true =>
      have hadd := add_of_parses hput hparses e now
      have hne : id ≠ Schedulable.id job := by
        rintro rfl
        simp [puts, hput, hparses] at hc
      unfold Agenda.add at hadd
      split at hadd
      · exact absurd hadd (by simp)
      · rw [← Except.ok.inj hadd, Table.get?_insert, if_neg hne]
        exact h
  cases c with
  | add expr job => exact hput expr job rfl
  | update job => exact hput _ job rfl
  | remove id' =>
    rcases agenda_remove e id' now with heq | heq
    · rwa [heq]
    · rw [heq, Agenda.remove, Table.get?_erase, h, ite_self]
  | dispatch =>
    simp only [after, Engine.dispatch, Agenda.get?_dispatch, h, Option.map_none]

end Call

/-- An engine after some calls, each with the time that the clock shows. -/
def afterAll (e : Engine J) (calls : List (Int × Call J)) : Engine J :=
  calls.foldl (fun e c => c.2.after e c.1) e

theorem afterAll_cons (e : Engine J) (c : Int × Call J) (calls : List (Int × Call J)) :
    e.afterAll (c :: calls) = (c.2.after e c.1).afterAll calls := rfl

theorem afterAll_append (e : Engine J) (calls more : List (Int × Call J)) :
    e.afterAll (calls ++ more) = (e.afterAll calls).afterAll more :=
  List.foldl_append

theorem coherent_afterAll {e : Engine J} (h : e.agenda.Coherent) (calls : List (Int × Call J)) :
    (e.afterAll calls).agenda.Coherent := by
  induction calls generalizing e with
  | nil => exact h
  | cons c calls ih => exact ih (Call.coherent h c.1 c.2)

theorem get?_afterAll_eq_none {e : Engine J} {id : String}
    (h : e.agenda.entries.get? id = none) {calls : List (Int × Call J)}
    (hcalls : ∀ c ∈ calls, c.2.puts id = false) :
    (e.afterAll calls).agenda.entries.get? id = none := by
  induction calls generalizing e with
  | nil => exact h
  | cons c calls ih =>
    refine ih (Call.get?_eq_none h c.1 (hcalls c List.mem_cons_self)) fun c' hc' => ?_
    exact hcalls c' (List.mem_cons_of_mem c hc')

/-- What it means that an engine goes through its agenda rightly at a time: it fires the entries
that are due, each once, marks them as fired, and then sleeps for a while that is not longer than a
minute and not longer than until the next entry is due. -/
structure Dispatches (e : Engine J) (now : Int) (fired : List J) (e' : Engine J) : Prop where
  due : ∀ job, job ∈ fired ↔ ∃ id entry t, e.agenda.entries.get? id = some entry ∧
    entry.job = job ∧ entry.next = some t ∧ t ≤ Instant.ofNanos now
  once : (fired.map Schedulable.id).Nodup
  marked : ∀ job ∈ fired, ∃ entry, e'.agenda.entries.get? (Schedulable.id job) = some entry ∧
    entry.job = job ∧ entry.prev ≠ none
  later : ∀ id entry t, e'.agenda.entries.get? id = some entry → entry.next = some t →
    Instant.ofNanos now < t
  sleep : ∃ wait, e'.loop = .sleeping (now + wait) ∧ 0 < wait ∧ wait ≤ maxIdle ∧
    ∀ id entry t, e'.agenda.entries.get? id = some entry → entry.next = some t →
      now + wait ≤ t.moment

theorem dispatches {e : Engine J} (h : e.agenda.Coherent) (now : Int) :
    e.Dispatches now (e.dispatch now).1 (e.dispatch now).2 := by
  have hnext : ∀ id entry t,
      (e.agenda.dispatch (Instant.ofNanos now)).2.entries.get? id = some entry →
      entry.next = some t → t.OnSecond ∧ now < t.moment := by
    intro id entry t he ht
    have hsecond := ((h.dispatch _).entry id entry he).onSecond t ht
    exact ⟨hsecond, (Instant.ofNanos_lt_iff hsecond).1 (Agenda.lt_of_get?_dispatch he ht)⟩
  have hearliest : ∀ u, (e.agenda.dispatch (Instant.ofNanos now)).2.earliest? = some u →
      u.OnSecond ∧ now < u.moment := by
    intro u hu
    obtain ⟨hmem, _⟩ := Agenda.earliestOf_spec hu
    obtain ⟨entry, hentry, hu⟩ := List.mem_filterMap.1 hmem
    obtain ⟨id, hid⟩ := Table.mem_values.1 hentry
    exact hnext id entry u hid hu
  obtain ⟨hpos, hmax⟩ := idleFor_mem hearliest
  refine ⟨fun job => Agenda.mem_dispatch, h.nodup_dispatch _, fun _ => h.marked_dispatch,
    fun id entry t he ht => Agenda.lt_of_get?_dispatch he ht, _, rfl, hpos, hmax, ?_⟩
  intro id entry t he ht
  obtain ⟨u, _, _, hu, _, _, hle⟩ := Agenda.exists_earliest? he ht
  obtain ⟨hsecond, hlt⟩ := hearliest u hu
  have hsleep := idleFor_le hsecond hlt
  have hmoment := Instant.moment_le hsecond hle
  rw [← hu] at hsleep
  exact Int.le_trans hsleep hmoment

/-- Whatever is called, and whatever the clock shows meanwhile, the entries of an engine that
started with nothing in its agenda are coherent; when it goes through its agenda it fires what is
due, once each, and nothing that was taken out before; and a call with an expression that cannot be
read is refused and changes nothing. -/
theorem dispatches_afterAll (zone : Zone) (staleness : Int) (calls : List (Int × Call J)) :
    let e := (empty zone staleness).afterAll calls
    e.agenda.Coherent ∧
    (∀ now, e.Dispatches now (e.dispatch now).1 (e.dispatch now).2 ∧
      ∀ id time earlier later, calls = earlier ++ (time, .remove id) :: later →
        (∀ c ∈ later, c.2.puts id = false) →
        ∀ job ∈ (e.dispatch now).1, Schedulable.id job ≠ id) ∧
    ∀ now (c : Call J) expr job, c.put? = some (expr, job) → Schedule.parses expr = false →
      (∃ error, e.add (Instant.ofNanos now) expr job = .error error) ∧ c.after e now = e := by
  intro e
  have hcoherent : e.agenda.Coherent := coherent_afterAll (Agenda.coherent_empty _ _) calls
  refine ⟨hcoherent, fun now => ⟨dispatches hcoherent now, ?_⟩, ?_⟩
  · rintro id time earlier later rfl hlater job hjob rfl
    have habsent : e.agenda.entries.get? (Schedulable.id job) = none := by
      simp only [e, afterAll_append, afterAll_cons]
      exact get?_afterAll_eq_none (get?_remove _ _) hlater
    obtain ⟨id, entry, _, he, rfl, _⟩ := Agenda.mem_dispatch.1 hjob
    rw [hcoherent.keyed id entry he, he] at habsent
    exact Option.some_ne_none entry habsent
  · intro now c expr job hput hparses
    refine ⟨?_, Call.after_of_not_parses hput hparses e now⟩
    unfold Schedule.parses at hparses
    rw [Engine.add, Agenda.add]
    cases hparse : Schedule.parse expr with
    | ok s => simp [hparse, Except.isOk, Except.toBool] at hparses
    | error error => exact ⟨error, rfl⟩

/-- After a stall of five seconds a job for every second is fired once, and it is not fired again
when the clock has been put back. -/
example :
    let e := (empty Zone.utc 0).afterAll [(0, .update everySecond)]
    (e.dispatch (5 * nanosPerSecond)).1.map Job.id = ["a"] ∧
      ((e.dispatch (5 * nanosPerSecond)).2.dispatch (2 * nanosPerSecond)).1.map Job.id = [] := by
  decide +kernel

end Engine

end CronScale
