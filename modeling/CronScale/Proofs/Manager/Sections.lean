import CronScale.Manager.Desk
/-!
# Sections under the lock

The queue is locked while a step of the manager's own works on it. The agenda has a lock of its own,
which is free between two accesses, so that the engine may go through the agenda in the middle of a
section. A section is a procedure that works at the bench: it reads and writes the queue and calls
upon the engine. `run_section` says that a section which is run in one go is the step of the
manager's own that it stands for.
-/

namespace CronScale

open CronScale.Calendar

/-- What a section may do to queue and agenda. -/
inductive BenchCall where
  | lookup (id : String)
  | queued
  | enqueue (job : Job)
  | dequeue (id : String)
  | schedule (job : Job)
  | unschedule (id : String)

/-- What is answered. -/
def BenchCall.Reply : BenchCall → Type
  | lookup _ => Option Job
  | queued => List Job
  | enqueue _ => Unit
  | dequeue _ => Bool
  | schedule _ => Except Fault Unit
  | unschedule _ => Bool

/-- What a section works on. -/
abbrev Bench : Interface := ⟨BenchCall, BenchCall.Reply⟩

namespace Bench

/-- One access to queue or agenda at a time. -/
def answer (now : Instant) : (c : BenchCall) → Manager → c.Reply × Manager
  | .lookup id, m => (m.queue.get? id, m)
  | .queued, m => (m.queue.values, m)
  | .enqueue job, m => ((), { m with queue := m.queue.insert job.id job })
  | .dequeue id, m => (m.queue.contains id, { m with queue := m.queue.erase id })
  | .schedule job, m =>
    match m.engine.update now job with
    | .ok engine => (.ok (), { m with engine := engine })
    | .error e => (.error (.unreadable e), m)
  | .unschedule id, m => (m.engine.has id, { m with engine := m.engine.remove id })

/-- Asks for one access. -/
def ask (c : BenchCall) : Procedure Bench c.Reply := Procedure.call (I := Bench) c

/-- Schedules a job and then queues it. -/
def enter (job : Job) (change : QueueChange) : Procedure Bench (Except Fault QueueChange) := do
  match ← ask (.schedule job) with
  | .error e => pure (.error e)
  | .ok () => do
    let () ← ask (.enqueue job)
    pure (.ok change)

/-- Takes a job out of the agenda and then out of the queue. -/
def drop (id : String) : Procedure Bench Bool := do
  let _ ← ask (.unschedule id)
  ask (.dequeue id)

/-- Takes several jobs out. -/
def dropAll : List String → Procedure Bench Unit
  | [] => pure ()
  | id :: ids => do
    let _ ← drop id
    dropAll ids

/-- Takes the jobs of a resource out whose ids pass a test, and counts them. -/
def dropOwned (owner : OwnerKey) (test : String → Bool) : Procedure Bench Nat := do
  let jobs ← ask .queued
  let ids := (jobs.filter fun j => j.owner = owner && test j.id).map Job.id
  dropAll ids
  pure ids.length

end Bench

/-- The section that a step of the manager's own stands for, if it needs the lock of the queue. -/
def ManagerCall.section? : (c : ManagerCall) → Option (Procedure Bench c.Reply)
  | .clock => none
  | .note _ _ => none
  | .dropComplaint _ => none
  | .find _ => none
  | .createOrUpdate job => some do
    match ← Bench.ask (.lookup job.id) with
    | none => Bench.enter job .created
    | some queued =>
      if queued.differsFrom job then Bench.enter job .updated else pure (.ok .unchanged)
  | .delete id => some (Bench.drop id)
  | .deleteOwnedBy owner => some (Bench.dropOwned owner fun _ => true)
  | .retainOwned owner keep => some (Bench.dropOwned owner fun id => !keep.contains id)
  | .queuedId owner name => some do
    let jobs ← Bench.ask .queued
    pure ((jobs.find? fun j => j.owner = owner && j.name == name).map Job.id)
  | .snapshot => some (Bench.ask .queued)
  | .jobCount => some do
    let jobs ← Bench.ask .queued
    pure jobs.length
  | .resubmit id => some do
    match ← Bench.ask (.lookup id) with
    | none => pure (.ok false)
    | some job =>
      match ← Bench.ask (.schedule job) with
      | .error e => pure (.error e)
      | .ok () => pure (.ok true)

namespace Bench

variable (now : Instant) (m : Manager)

theorem run_ask (c : BenchCall) : (ask c).run (answer now) m = answer now c m := rfl

theorem run_enter (job : Job) (change : QueueChange) :
    (enter job change).run (answer now) m = m.enter now job change := by
  simp only [enter, Procedure.run_seq, run_ask, answer, Manager.enter]
  cases m.engine.update now job <;> rfl

theorem run_drop (id : String) : (drop id).run (answer now) m = m.delete id := rfl

theorem run_dropAll (ids : List String) :
    (dropAll ids).run (answer now) m = ((), m.dropAll ids) := by
  induction ids generalizing m with
  | nil => rfl
  | cons id ids ih =>
    simp only [dropAll, Procedure.run_seq, run_drop, ih]
    rfl

theorem run_dropOwned (owner : OwnerKey) (test : String → Bool) :
    (dropOwned owner test).run (answer now) m =
      ((m.idsOf owner test).length, m.dropAll (m.idsOf owner test)) := by
  simp only [dropOwned, Procedure.run_seq, run_ask, answer, run_dropAll]
  rfl

/-- A step of the manager's own is its section run in one go. -/
theorem run_section {c : ManagerCall} {p : Procedure Bench c.Reply} (h : c.section? = some p) :
    p.run (answer now) m = m.answer now c := by
  cases c with
  | clock => exact absurd h (Option.some_ne_none p).symm
  | note owner complaint => exact absurd h (Option.some_ne_none p).symm
  | dropComplaint owner => exact absurd h (Option.some_ne_none p).symm
  | find id => exact absurd h (Option.some_ne_none p).symm
  | createOrUpdate job =>
    obtain rfl := Option.some.inj h
    simp only [Procedure.run_seq, run_ask, answer, Manager.answer, Manager.createOrUpdate]
    cases m.queue.get? job.id with
    | none => exact run_enter now m job .created
    | some queued =>
      by_cases hdiffers : queued.differsFrom job = true
      · simp only [hdiffers, if_true]
        exact run_enter now m job .updated
      · simp only [hdiffers]
        rfl
  | delete id =>
    obtain rfl := Option.some.inj h
    rfl
  | deleteOwnedBy owner =>
    obtain rfl := Option.some.inj h
    exact run_dropOwned now m owner _
  | retainOwned owner keep =>
    obtain rfl := Option.some.inj h
    exact run_dropOwned now m owner _
  | queuedId owner name =>
    obtain rfl := Option.some.inj h
    rfl
  | snapshot =>
    obtain rfl := Option.some.inj h
    rfl
  | resubmit id =>
    obtain rfl := Option.some.inj h
    simp only [Procedure.run_seq, run_ask, answer, Manager.answer, Manager.resubmit]
    cases m.queue.get? id with
    | none => rfl
    | some job =>
      simp only [Procedure.run_seq, run_ask, answer]
      cases m.engine.update now job <;> rfl
  | jobCount =>
    obtain rfl := Option.some.inj h
    simp only [Procedure.run_seq, run_ask, answer, Manager.answer, Table.values, Table.size,
      List.length_map]
    rfl

end Bench

end CronScale
