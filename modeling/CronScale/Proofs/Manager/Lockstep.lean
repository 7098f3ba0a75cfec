import CronScale.Manager.Controller
import CronScale.Manager.Record
import CronScale.Proofs.Manager.Sections
import CronScale.Proofs.Outcomes
/-!
# Queue and agenda in lockstep

Whenever the lock of the queue is free, the agenda holds exactly the queued jobs, each under its id
and its own schedule. This holds whatever procedures there are, in whatever order they have their
turns, whatever the home of the resources answers them, and at whatever points the engine goes
through the agenda, in the middle of a section too. The times at which jobs are due play no part.
-/

namespace CronScale

open CronScale.Calendar

namespace Engine

/-- What the agenda says about an id apart from times: the job and the expression it is scheduled
under. -/
def scheduled? (e : Engine Job) (id : String) : Option (Job × String) :=
  (e.agenda.entries.get? id).map fun entry => (entry.job, entry.expr)

variable {e e' : Engine Job}

theorem has_eq_isSome (e : Engine Job) (id : String) : e.has id = (e.scheduled? id).isSome := by
  rw [scheduled?, Option.isSome_map]
  rfl

/-- Whether a job can be scheduled depends on its expression alone. -/
theorem update_error_iff {now : Instant} {job : Job} {err : Schedule.ParseError} :
    e.update now job = .error err ↔ Schedule.parse job.schedule = .error err := by
  simp only [update, add, Agenda.add, Schedulable.schedule]
  cases Schedule.parse job.schedule <;> simp [Except.map]

theorem scheduled?_update {now : Instant} {job : Job} (h : e.update now job = .ok e')
    (id : String) :
    e'.scheduled? id = if id = job.id then some (job, job.schedule) else e.scheduled? id := by
  simp only [update, add, Agenda.add, Schedulable.schedule, Schedulable.id] at h
  obtain ⟨a, ha, rfl⟩ := map_eq_ok.1 h
  split at ha
  · exact absurd ha (by simp)
  · obtain rfl := Except.ok.inj ha
    simp only [scheduled?, Table.get?_insert]
    split <;> rfl

theorem scheduled?_remove (e : Engine Job) (id id' : String) :
    (e.remove id).scheduled? id' = if id' = id then none else e.scheduled? id' := by
  by_cases h : e.agenda.entries.contains id = true
  · simp only [remove, h, if_true, scheduled?, Agenda.remove, Table.get?_erase]
    split <;> rfl
  · have hnone : e.scheduled? id = none := by
      rw [← Option.not_isSome_iff_eq_none, ← has_eq_isSome]
      exact h
    rw [remove, if_neg h]
    split
    · rename_i heq
      rw [heq, hnone]
    · rfl

theorem scheduled?_dispatch (e : Engine Job) (now : Int) (id : String) :
    (e.dispatch now).2.scheduled? id = e.scheduled? id := by
  simp only [scheduled?, dispatch, Agenda.dispatch, Table.get?_map, Option.map_map]
  congr 1
  funext entry
  simp only [Function.comp_apply]
  split <;> rfl

theorem scheduled?_turn (e : Engine Job) (now : Int) (id : String) :
    (e.turn now).2.scheduled? id = e.scheduled? id := by
  unfold turn
  split
  · rfl
  · split
    · exact scheduled?_dispatch e now id
    · rfl

end Engine

namespace Manager

/-- Whether the agenda holds exactly the queued jobs, each under its id and its own schedule. -/
structure Lockstep (m : Manager) : Prop where
  sameIds : ∀ id, m.engine.agenda.entries.contains id = m.queue.contains id
  keyed : ∀ id job, m.queue.get? id = some job → job.id = id
  entries : ∀ id entry, m.engine.agenda.entries.get? id = some entry →
    m.queue.get? id = some entry.job ∧ entry.expr = entry.job.schedule

theorem lockstep_iff {m : Manager} :
    m.Lockstep ↔ (∀ id job, m.queue.get? id = some job → job.id = id) ∧
      ∀ id, m.engine.scheduled? id = (m.queue.get? id).map fun job => (job, job.schedule) := by
  constructor
  · intro h
    refine ⟨h.keyed, fun id => ?_⟩
    have hsame := h.sameIds id
    simp only [Table.contains] at hsame
    cases hentry : m.engine.agenda.entries.get? id with
    | none =>
      have hqueue : m.queue.get? id = none := by simpa [hentry] using hsame.symm
      rw [Engine.scheduled?, hentry, hqueue]
      rfl
    | some entry =>
      obtain ⟨hqueue, hexpr⟩ := h.entries id entry hentry
      rw [Engine.scheduled?, hentry, hqueue, Option.map_some, Option.map_some, hexpr]
  · rintro ⟨hkeyed, hscheduled⟩
    refine ⟨fun id => ?_, hkeyed, fun id entry hentry => ?_⟩
    · have := congrArg Option.isSome (hscheduled id)
      rwa [Engine.scheduled?, Option.isSome_map, Option.isSome_map] at this
    · have := hscheduled id
      rw [Engine.scheduled?, hentry, Option.map_some] at this
      obtain ⟨job, hjob, heq⟩ := Option.map_eq_some_iff.1 this.symm
      obtain ⟨rfl, hexpr⟩ := Prod.mk.inj heq
      exact ⟨hjob, hexpr.symm⟩

/-! ### The steps of the manager's own -/

/-- A job that is entered is queued under its id, unless its schedule cannot be read. -/
theorem enter_eq (m : Manager) (now : Instant) (job : Job) (change : QueueChange) :
    (∃ e, Schedule.parse job.schedule = .error e ∧
      m.enter now job change = (.error (.unreadable e), m)) ∨
    ∃ engine, m.engine.update now job = .ok engine ∧
      m.enter now job change =
        (.ok change, { m with queue := m.queue.insert job.id job, engine := engine }) := by
  cases hupdate : m.engine.update now job with
  | error e =>
    exact .inl ⟨e, Engine.update_error_iff.1 hupdate, by simp only [enter, hupdate]⟩
  | ok engine => exact .inr ⟨engine, rfl, by simp only [enter, hupdate]⟩

/-- A job that is brought in is entered, unless one from which it does not differ is queued. -/
theorem createOrUpdate_eq (m : Manager) (now : Instant) (job : Job) :
    (∃ change, m.createOrUpdate now job = m.enter now job change) ∨
    ∃ queued, m.queue.get? job.id = some queued ∧ queued.differsFrom job = false ∧
      m.createOrUpdate now job = (.ok .unchanged, m) := by
  unfold createOrUpdate
  cases hqueued : m.queue.get? job.id with
  | none => exact .inl ⟨.created, rfl⟩
  | some queued =>
    cases hdiffers : queued.differsFrom job with
    | true => exact .inl ⟨.updated, if_pos hdiffers⟩
    | false => exact .inr ⟨queued, rfl, hdiffers, by simp only [hdiffers]; rfl⟩

theorem note_eq (m : Manager) (owner : OwnerKey) (complaint : Option String) :
    ∃ complaints, (m.note owner complaint).2 = { m with complaints := complaints } := by
  cases complaint with
  | none => exact ⟨_, rfl⟩
  | some c =>
    simp only [note]
    split
    · exact ⟨_, rfl⟩
    · exact ⟨_, rfl⟩

theorem lockstep_empty (zone : Zone) (staleness : Int) : (Manager.empty zone staleness).Lockstep :=
  lockstep_iff.2 ⟨fun _ _ h => absurd h (Option.some_ne_none _).symm, fun _ => rfl⟩

/-- Lockstep does not depend on times. -/
theorem Lockstep.congr {m m' : Manager} (h : m.Lockstep) (hqueue : m'.queue = m.queue)
    (hengine : ∀ id, m'.engine.scheduled? id = m.engine.scheduled? id) : m'.Lockstep := by
  rw [lockstep_iff] at h ⊢
  rw [hqueue]
  exact ⟨h.1, fun id => (hengine id).trans (h.2 id)⟩

theorem Lockstep.enter {m : Manager} (h : m.Lockstep) (now : Instant) (job : Job)
    (change : QueueChange) : (m.enter now job change).2.Lockstep := by
  simp only [Manager.enter]
  cases hupdate : m.engine.update now job with
  | error e => exact h
  | ok engine =>
    rw [lockstep_iff] at h ⊢
    refine ⟨fun id queued hqueued => ?_, fun id => ?_⟩
    · simp only [Table.get?_insert] at hqueued
      split at hqueued
      · rw [← Option.some.inj hqueued]
        exact (‹id = job.id›).symm
      · exact h.1 id queued hqueued
    · simp only [Engine.scheduled?_update hupdate, Table.get?_insert]
      split
      · rfl
      · exact h.2 id

theorem Lockstep.drop {m : Manager} (h : m.Lockstep) (id : String) : (m.drop id).Lockstep := by
  rw [lockstep_iff] at h ⊢
  refine ⟨fun id' queued hqueued => ?_, fun id' => ?_⟩
  · simp only [Manager.drop, Table.get?_erase] at hqueued
    split at hqueued
    · exact absurd hqueued (Option.some_ne_none _).symm
    · exact h.1 id' queued hqueued
  · simp only [Manager.drop, Engine.scheduled?_remove, Table.get?_erase]
    split
    · rfl
    · exact h.2 id'

theorem Lockstep.dropAll {m : Manager} (h : m.Lockstep) (ids : List String) :
    (m.dropAll ids).Lockstep := by
  induction ids generalizing m with
  | nil => exact h
  | cons id ids ih => exact ih (h.drop id)

theorem Lockstep.resubmit {m : Manager} (h : m.Lockstep) (now : Instant) (id : String) :
    (m.resubmit now id).2.Lockstep := by
  simp only [Manager.resubmit]
  cases hqueued : m.queue.get? id with
  | none => exact h
  | some job =>
    cases hupdate : m.engine.update now job with
    | error e => simp only [hupdate, h]
    | ok engine =>
      simp only [hupdate]
      refine h.congr rfl fun id' => ?_
      simp only [Engine.scheduled?_update hupdate]
      split
      · -- The job that is scheduled anew is the queued one.
        rename_i heq
        rw [heq, h.keyed id job hqueued, (lockstep_iff.1 h).2 id, hqueued]
        rfl
      · rfl

/-- Every step of the manager's own keeps queue and agenda in lockstep. -/
theorem Lockstep.answer {m : Manager} (h : m.Lockstep) (now : Instant) (c : ManagerCall) :
    (m.answer now c).2.Lockstep := by
  cases c with
  | clock => exact h
  | note owner complaint =>
    obtain ⟨complaints, heq⟩ := m.note_eq owner complaint
    exact h.congr (by rw [Manager.answer, heq]) fun _ => by rw [Manager.answer, heq]
  | dropComplaint owner => exact h.congr rfl fun _ => rfl
  | createOrUpdate job =>
    rw [Manager.answer]
    rcases m.createOrUpdate_eq now job with ⟨change, heq⟩ | ⟨_, _, _, heq⟩
    · exact heq ▸ h.enter now job change
    · exact heq ▸ h
  | delete id => exact h.drop id
  | deleteOwnedBy owner => exact h.dropAll _
  | retainOwned owner keep => exact h.dropAll _
  | queuedId owner name => exact h
  | snapshot => exact h
  | find id => exact h
  | resubmit id => exact h.resubmit now id
  | jobCount => exact h

/-- A job that cannot be scheduled is not queued either. -/
theorem createOrUpdate_error {m m' : Manager} {now : Instant} {job : Job} {e : Fault}
    (h : m.createOrUpdate now job = (.error e, m')) : m' = m := by
  rcases m.createOrUpdate_eq now job with ⟨change, heq⟩ | ⟨_, _, _, heq⟩
  · rcases m.enter_eq now job change with ⟨_, _, heq'⟩ | ⟨_, _, heq'⟩
    · rw [heq, heq'] at h
      exact (Prod.mk.inj h).2.symm
    · rw [heq, heq'] at h
      exact absurd (Prod.mk.inj h).1 (by simp)
  · rw [heq] at h
    exact absurd (Prod.mk.inj h).1 (by simp)

theorem resubmit_error {m m' : Manager} {now : Instant} {id : String} {e : Fault}
    (h : m.resubmit now id = (.error e, m')) : m' = m := by
  simp only [resubmit] at h
  split at h
  · exact absurd (Prod.mk.inj h).1 (by simp)
  · split at h
    · exact (Prod.mk.inj h).2.symm
    · exact absurd (Prod.mk.inj h).1 (by simp)

end Manager

/-! ### Sections in the middle of which the engine goes through the agenda -/

namespace Manager

/-- Whether two managers have the same queue, and agendas that differ in times only. -/
structure Alike (m m' : Manager) : Prop where
  queue : m'.queue = m.queue
  engine : ∀ id, m'.engine.scheduled? id = m.engine.scheduled? id

theorem Alike.rfl {m : Manager} : Alike m m := ⟨Eq.refl _, fun _ => Eq.refl _⟩

theorem Lockstep.of_alike {m m' : Manager} (h : m.Lockstep) (halike : Alike m m') : m'.Lockstep :=
  h.congr halike.queue halike.engine

/-- A step that needs no lock of the queue changes neither queue nor agenda. -/
theorem alike_answer {c : ManagerCall} (h : c.section? = none) (m : Manager) (now : Instant) :
    Alike m (m.answer now c).2 := by
  cases c with
  | clock => exact .rfl
  | note owner complaint =>
    obtain ⟨complaints, heq⟩ := m.note_eq owner complaint
    exact ⟨by rw [answer, heq], fun _ => by rw [answer, heq]⟩
  | dropComplaint owner => exact ⟨Eq.refl _, fun _ => Eq.refl _⟩
  | find id => exact .rfl
  | createOrUpdate job => exact absurd h (Option.some_ne_none _)
  | delete id => exact absurd h (Option.some_ne_none _)
  | deleteOwnedBy owner => exact absurd h (Option.some_ne_none _)
  | retainOwned owner keep => exact absurd h (Option.some_ne_none _)
  | queuedId owner name => exact absurd h (Option.some_ne_none _)
  | snapshot => exact absurd h (Option.some_ne_none _)
  | resubmit id => exact absurd h (Option.some_ne_none _)
  | jobCount => exact absurd h (Option.some_ne_none _)

end Manager

namespace Bench

/-- What an access answers and what it does depend on times only in the times that the agenda
holds. -/
theorem answer_alike {m m' : Manager} (h : m.Alike m') (now now' : Instant) (c : BenchCall) :
    (answer now' c m').1 = (answer now c m).1 ∧ (answer now c m).2.Alike (answer now' c m').2 := by
  cases c with
  | lookup id => exact ⟨by rw [answer, h.queue]; rfl, h⟩
  | queued => exact ⟨by rw [answer, h.queue]; rfl, h⟩
  | enqueue job => exact ⟨rfl, by simp only [answer, h.queue], h.engine⟩
  | dequeue id => exact ⟨by rw [answer, h.queue]; rfl, by simp only [answer, h.queue], h.engine⟩
  | unschedule id =>
    refine ⟨?_, h.queue, fun id' => ?_⟩
    · simp only [answer, Engine.has_eq_isSome, h.engine]
      rfl
    · simp only [answer, Engine.scheduled?_remove, h.engine]
  | schedule job =>
    cases hupdate : m.engine.update now job with
    | error e =>
      have hupdate' : m'.engine.update now' job = .error e :=
        Engine.update_error_iff.2 (Engine.update_error_iff.1 hupdate)
      simp only [answer, hupdate, hupdate']
      exact ⟨rfl, h⟩
    | ok engine =>
      cases hupdate' : m'.engine.update now' job with
      | error e =>
        rw [Engine.update_error_iff.2 (Engine.update_error_iff.1 hupdate')] at hupdate
        exact absurd hupdate (by simp)
      | ok engine' =>
        simp only [answer, hupdate, hupdate']
        refine ⟨rfl, h.queue, fun id => ?_⟩
        simp only [Engine.scheduled?_update hupdate, Engine.scheduled?_update hupdate', h.engine]

theorem run_alike {α : Type} {m m' : Manager} (h : m.Alike m') (now now' : Instant)
    (p : Procedure Bench α) : (p.run (answer now) m).2.Alike (p.run (answer now') m').2 := by
  induction p generalizing m m' with
  | done a => exact h
  | ask c next ih =>
    obtain ⟨hreply, halike⟩ := answer_alike h now now' c
    simp only [Procedure.run, hreply]
    exact ih _ halike

/-- Whether a procedure is over at once when a job cannot be scheduled. -/
def EndsOnFault {α : Type} : Procedure Bench α → Prop
  | .done _ => True
  | .ask (.schedule _) next => (∀ e, ∃ a, next (.error e) = .done a) ∧ ∀ r, EndsOnFault (next r)
  | .ask (.lookup _) next => ∀ r, EndsOnFault (next r)
  | .ask .queued next => ∀ r, EndsOnFault (next r)
  | .ask (.enqueue _) next => ∀ r, EndsOnFault (next r)
  | .ask (.dequeue _) next => ∀ r, EndsOnFault (next r)
  | .ask (.unschedule _) next => ∀ r, EndsOnFault (next r)

variable {α β : Type}

theorem endsOnFault_enter (job : Job) (change : QueueChange) :
    EndsOnFault (enter job change) := by
  refine ⟨fun e => ⟨.error e, rfl⟩, fun r => ?_⟩
  cases r with
  | error e => trivial
  | ok u => exact fun _ => trivial

theorem endsOnFault_dropAll (ids : List String) {f : Unit → Procedure Bench α}
    (h : ∀ u, EndsOnFault (f u)) : EndsOnFault ((dropAll ids).bind f) := by
  induction ids with
  | nil => exact h ()
  | cons id ids ih => exact fun _ _ => ih

theorem EndsOnFault.next {c : BenchCall} {next : c.Reply → Procedure Bench α}
    (h : EndsOnFault (.ask c next)) (r : c.Reply) : EndsOnFault (next r) := by
  cases c with
  | schedule job => exact h.2 r
  | lookup id => exact h r
  | queued => exact h r
  | enqueue job => exact h r
  | dequeue id => exact h r
  | unschedule id => exact h r

theorem endsOnFault_map {p : Procedure Bench α} (h : EndsOnFault p) (f : α → β) :
    EndsOnFault (p.bind fun a => .done (f a)) := by
  induction p with
  | done a => trivial
  | ask c next ih =>
    cases c with
    | schedule job =>
      refine ⟨fun e => ?_, fun r => ih r (h.2 r)⟩
      obtain ⟨a, ha⟩ := h.1 e
      exact ⟨f a, congrArg (fun q : Procedure Bench α => q.bind fun a => .done (f a)) ha⟩
    | lookup id => exact fun r => ih r (h r)
    | queued => exact fun r => ih r (h r)
    | enqueue job => exact fun r => ih r (h r)
    | dequeue id => exact fun r => ih r (h r)
    | unschedule id => exact fun r => ih r (h r)

/-- Every section is over at once when a job cannot be scheduled. -/
theorem endsOnFault_section {c : ManagerCall} {p : Procedure Bench c.Reply}
    (h : c.section? = some p) : EndsOnFault p := by
  cases c with
  | clock => exact absurd h (Option.some_ne_none p).symm
  | note owner complaint => exact absurd h (Option.some_ne_none p).symm
  | dropComplaint owner => exact absurd h (Option.some_ne_none p).symm
  | find id => exact absurd h (Option.some_ne_none p).symm
  | createOrUpdate job =>
    obtain rfl := Option.some.inj h
    intro r
    cases r with
    | none => exact endsOnFault_enter job .created
    | some queued =>
      show EndsOnFault (if queued.differsFrom job then enter job .updated else pure _)
      split
      · exact endsOnFault_enter job .updated
      · trivial
  | delete id =>
    obtain rfl := Option.some.inj h
    exact fun _ _ => trivial
  | deleteOwnedBy owner =>
    obtain rfl := Option.some.inj h
    exact fun _ => endsOnFault_dropAll _ fun _ => trivial
  | retainOwned owner keep =>
    obtain rfl := Option.some.inj h
    exact fun _ => endsOnFault_dropAll _ fun _ => trivial
  | queuedId owner name =>
    obtain rfl := Option.some.inj h
    exact fun _ => trivial
  | snapshot =>
    obtain rfl := Option.some.inj h
    exact fun _ => trivial
  | resubmit id =>
    obtain rfl := Option.some.inj h
    intro r
    cases r with
    | none => trivial
    | some job =>
      refine ⟨fun e => ⟨.error e, rfl⟩, fun r => ?_⟩
      cases r with
      | error e => trivial
      | ok u => trivial
  | jobCount =>
    obtain rfl := Option.some.inj h
    exact fun _ => trivial

end Bench

/-! ### Procedures under way -/

/-- A manager with its procedures under way. One of them may be in a section; what remains of the
section comes to what its procedure does afterwards. -/
structure Workshop where
  manager : Manager
  procedures : List (Procedure Desk Unit)
  holder : Option (Procedure Bench (Procedure Desk Unit))

namespace Workshop

/-- A manager that has just been made. -/
def new (zone : Zone) (staleness : Int) : Workshop := ⟨.empty zone staleness, [], none⟩

/-- What can happen at some time. A call that is not one of the manager's own steps may be answered
with anything. -/
inductive Step : Workshop → Workshop → Prop
  | begin (w : Workshop) (p : Procedure Desk Unit) :
      Step w { w with procedures := p :: w.procedures }
  | outside {m : Manager} {ps qs : List (Procedure Desk Unit)}
      {h : Option (Procedure Bench (Procedure Desk Unit))} {c : DeskCall}
      (next : c.Reply → Procedure Desk Unit) (r : c.Reply) (hc : ∀ own, c ≠ .manager own) :
      Step ⟨m, ps ++ .ask c next :: qs, h⟩ ⟨m, ps ++ next r :: qs, h⟩
  | unlocked {m : Manager} {ps qs : List (Procedure Desk Unit)}
      {h : Option (Procedure Bench (Procedure Desk Unit))} {c : ManagerCall} (now : Instant)
      (next : c.Reply → Procedure Desk Unit) (hc : c.section? = none) :
      Step ⟨m, ps ++ .ask (.manager c) next :: qs, h⟩
        ⟨(m.answer now c).2, ps ++ next (m.answer now c).1 :: qs, h⟩
  | lock {m : Manager} {ps qs : List (Procedure Desk Unit)} {c : ManagerCall}
      {p : Procedure Bench c.Reply} (next : c.Reply → Procedure Desk Unit)
      (hc : c.section? = some p) :
      Step ⟨m, ps ++ .ask (.manager c) next :: qs, none⟩
        ⟨m, ps ++ qs, some (p.bind fun r => .done (next r))⟩
  | work {m : Manager} {ps : List (Procedure Desk Unit)} {c : BenchCall} (now : Instant)
      (next : c.Reply → Procedure Bench (Procedure Desk Unit)) :
      Step ⟨m, ps, some (.ask c next)⟩
        ⟨(Bench.answer now c m).2, ps, some (next (Bench.answer now c m).1)⟩
  | unlock {m : Manager} {ps : List (Procedure Desk Unit)} (p : Procedure Desk Unit) :
      Step ⟨m, ps, some (.done p)⟩ ⟨m, p :: ps, none⟩
  | turn (w : Workshop) (now : Int) :
      Step w { w with manager := { w.manager with engine := (w.manager.engine.turn now).2 } }
  | start (w : Workshop) (now : Int) :
      Step w { w with manager := { w.manager with engine := w.manager.engine.start now } }
  | stop (w : Workshop) :
      Step w { w with manager := { w.manager with engine := w.manager.engine.stop } }
  | restart (w : Workshop) (zone : Zone) (staleness : Int) : Step w (new zone staleness)

/-- What a manager can come to. -/
inductive Reachable : Workshop → Prop
  | new (zone : Zone) (staleness : Int) : Reachable (new zone staleness)
  | step {w w' : Workshop} : Reachable w → Step w w' → Reachable w'

/-- The invariant: queue and agenda are in lockstep once the section under the lock, if there is
one, has been run to its end. -/
def Sound (w : Workshop) : Prop :=
  match w.holder with
  | none => w.manager.Lockstep
  | some p => (p.run (Bench.answer default) w.manager).2.Lockstep ∧ Bench.EndsOnFault p

theorem Sound.of_alike {w w' : Workshop} (h : w.Sound) (hholder : w'.holder = w.holder)
    (halike : w.manager.Alike w'.manager) : w'.Sound := by
  simp only [Sound, hholder] at h ⊢
  split at h
  · exact h.of_alike halike
  · exact ⟨h.1.of_alike (Bench.run_alike halike _ _ _), h.2⟩

theorem Sound.step {w w' : Workshop} (h : w.Sound) (hstep : Step w w') : w'.Sound := by
  cases hstep with
  | begin _ p => exact h.of_alike rfl .rfl
  | outside next r hc => exact h.of_alike rfl .rfl
  | unlocked now next hc => exact h.of_alike rfl (Manager.alike_answer hc _ now)
  | lock next hc =>
    refine ⟨?_, Bench.endsOnFault_map (Bench.endsOnFault_section hc) next⟩
    rw [Procedure.run_bind, Bench.run_section _ _ hc]
    exact Manager.Lockstep.answer h _ _
  | @work m _ c now next =>
    obtain ⟨hrun, hends⟩ := h
    obtain ⟨hreply, halike⟩ := Bench.answer_alike (.rfl (m := m)) default now c
    refine ⟨?_, hends.next _⟩
    rw [hreply]
    exact hrun.of_alike (Bench.run_alike halike _ _ _)
  | unlock p => exact h.1
  | turn _ now => exact h.of_alike rfl ⟨rfl, fun id => Engine.scheduled?_turn _ now id⟩
  | start _ now => exact h.of_alike rfl ⟨rfl, fun _ => rfl⟩
  | stop => exact h.of_alike rfl ⟨rfl, fun _ => rfl⟩
  | restart _ zone staleness => exact Manager.lockstep_empty zone staleness

theorem sound_of_reachable {w : Workshop} (h : Reachable w) : w.Sound := by
  induction h with
  | new zone staleness => exact Manager.lockstep_empty zone staleness
  | step _ hstep ih => exact ih.step hstep

theorem Reachable.workOn {m : Manager} {ps : List (Procedure Desk Unit)}
    {p : Procedure Bench (Procedure Desk Unit)} (h : Reachable ⟨m, ps, some p⟩) (now : Instant) :
    Reachable ⟨(p.run (Bench.answer now) m).2, ps,
      some (.done (p.run (Bench.answer now) m).1)⟩ := by
  induction p generalizing m with
  | done a => exact h
  | ask c next ih => exact ih _ (h.step (.work now next))

/-- A step of the manager's own as a whole, with nothing in the middle of its section. -/
theorem Reachable.own {m : Manager} {ps qs : List (Procedure Desk Unit)} {c : ManagerCall}
    {p : Procedure Bench c.Reply} {next : c.Reply → Procedure Desk Unit}
    (h : Reachable ⟨m, ps ++ .ask (.manager c) next :: qs, none⟩) (hc : c.section? = some p)
    (now : Instant) :
    Reachable ⟨(m.answer now c).2, next (m.answer now c).1 :: (ps ++ qs), none⟩ := by
  have hlast := (h.step (.lock next hc)).workOn now
  rw [Procedure.run_bind, Bench.run_section _ _ hc] at hlast
  exact hlast.step (.unlock _)

/-- Whenever no procedure holds the lock of the queue, the agenda holds exactly the queued jobs,
each under its id and its own schedule. A job that cannot be scheduled changes neither of the two:
not in a step of the manager's own as a whole, and not in the middle of a section, which is over
then. -/
theorem lockstep_of_reachable {w : Workshop} (h : Reachable w) :
    (w.holder = none →
      w.manager.Lockstep ∧
      (∀ now job e m, w.manager.answer now (.createOrUpdate job) = (.error e, m) →
        m = w.manager) ∧
      ∀ now id e m, w.manager.answer now (.resubmit id) = (.error e, m) → m = w.manager) ∧
    ∀ job next, w.holder = some (.ask (.schedule job) next) →
      ∀ now e m, Bench.answer now (.schedule job) w.manager = (.error e, m) →
        m = w.manager ∧ ∃ p, next (.error e) = .done p := by
  have hsound := sound_of_reachable h
  constructor
  · intro hfree
    rw [Sound, hfree] at hsound
    exact ⟨hsound, fun _ _ _ _ => Manager.createOrUpdate_error, fun _ _ _ _ =>
      Manager.resubmit_error⟩
  · intro job next hholder now e m hanswer
    rw [Sound, hholder] at hsound
    refine ⟨?_, hsound.2.1 e⟩
    simp only [Bench.answer] at hanswer
    split at hanswer
    · exact absurd (Prod.mk.inj hanswer).1 (by simp)
    · exact (Prod.mk.inj hanswer).2.symm

/-- A job for every night. -/
def nightly : Job := { (default : Job) with id := "a", schedule := "@daily" }

/-- The workshop after that job was queued. -/
def withNightly : Workshop :=
  ⟨((new Zone.utc 0).manager.answer ⟨0, 0⟩ (.createOrUpdate nightly)).2, [.done ()], none⟩

theorem withNightly_lockstep :
    withNightly.manager.queue.contains "a" = true ∧ withNightly.manager.Lockstep := by
  have hbegun : Reachable ⟨(new Zone.utc 0).manager,
      [] ++ .ask (.manager (.createOrUpdate nightly)) (fun _ => .done ()) :: [], none⟩ :=
    (Reachable.new Zone.utc 0).step (.begin _ _)
  have hqueued : Reachable withNightly := hbegun.own rfl ⟨0, 0⟩
  exact ⟨by decide +kernel, ((lockstep_of_reachable hqueued).1 rfl).1⟩

end Workshop

end CronScale
