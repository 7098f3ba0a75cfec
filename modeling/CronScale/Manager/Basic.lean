import CronScale.Engine.Basic
import CronScale.Metrics
import CronScale.Scaling.Execution
/-!
# The manager

The manager keeps a queue of the jobs that resources declare, under their ids, and the same jobs in
the agenda of its engine. It also remembers, for every resource, the complaint about its
specification that was last made known. The operations of this module are the steps that nothing
can come between; a step that fails changes nothing.
-/

namespace CronScale

open CronScale.Calendar

instance : Schedulable Job where
  id := Job.id
  name := Job.name
  owner := Job.owner
  schedule := Job.schedule
  runOnce := Job.runOnce

/-- How the manager carries out and collects jobs. Intervals are in milliseconds. -/
structure ManagerSettings where
  execution : ExecutionSettings
  gcInterval : Nat := 600000
  statusPatchRetries : Nat := 3
  deriving Inhabited

/-- What has become of a job that was put into the queue. -/
inductive QueueChange where
  | created
  | updated
  | unchanged
  deriving DecidableEq, Repr

def QueueChange.name : QueueChange → String
  | created => "Created"
  | updated => "Updated"
  | unchanged => "Unchanged"

/-- The jobs that are queued and scheduled, and the complaints that were made known. -/
structure Manager where
  queue : Table String Job
  complaints : Table OwnerKey String
  engine : Engine Job
  deriving Inhabited

namespace Manager

def empty (zone : Zone) (staleness : Int) : Manager :=
  ⟨Table.empty, Table.empty, .empty zone staleness⟩

/-- Queues and schedules a job under its id. -/
def enter (m : Manager) (now : Instant) (job : Job) (change : QueueChange) :
    Except Fault QueueChange × Manager :=
  match m.engine.update now job with
  | .error e => (.error (.unreadable e), m)
  | .ok engine => (.ok change, { m with queue := m.queue.insert job.id job, engine := engine })

/-- Brings a job into the queue; a queued job from which it does not differ is left alone. -/
def createOrUpdate (m : Manager) (now : Instant) (job : Job) : Except Fault QueueChange × Manager :=
  match m.queue.get? job.id with
  | none => m.enter now job .created
  | some queued =>
    if queued.differsFrom job then m.enter now job .updated else (.ok .unchanged, m)

def drop (m : Manager) (id : String) : Manager :=
  { m with queue := m.queue.erase id, engine := m.engine.remove id }

/-- Takes a job out of queue and agenda, and says whether it was queued. -/
def delete (m : Manager) (id : String) : Bool × Manager := (m.queue.contains id, m.drop id)

def dropAll (m : Manager) (ids : List String) : Manager := ids.foldl drop m

/-- The ids of the queued jobs of a resource that pass a test. -/
def idsOf (m : Manager) (owner : OwnerKey) (test : String → Bool) : List String :=
  (m.queue.values.filter fun j => j.owner = owner && test j.id).map Job.id

/-- Takes all jobs of a resource out, and says how many there were. -/
def deleteOwnedBy (m : Manager) (owner : OwnerKey) : Nat × Manager :=
  let ids := m.idsOf owner fun _ => true
  (ids.length, m.dropAll ids)

/-- Takes the jobs of a resource out whose ids are not to be kept. -/
def retainOwned (m : Manager) (owner : OwnerKey) (keep : List String) : Nat × Manager :=
  let ids := m.idsOf owner fun id => !keep.contains id
  (ids.length, m.dropAll ids)

def dropComplaint (m : Manager) (owner : OwnerKey) : Manager :=
  { m with complaints := m.complaints.erase owner }

/-- The id under which a job of a resource is queued. -/
def queuedId (m : Manager) (owner : OwnerKey) (name : String) : Option String :=
  (m.queue.values.find? fun j => j.owner = owner && j.name == name).map Job.id

/-- Remembers the complaint about a resource, or that there is none, and says whether it has to be
made known. -/
def note (m : Manager) (owner : OwnerKey) : Option String → Bool × Manager
  | none => (false, m.dropComplaint owner)
  | some c =>
    if m.complaints.get? owner = some c then (false, m)
    else (true, { m with complaints := m.complaints.insert owner c })

/-- Schedules a queued job anew; a job that is not queued is left alone. -/
def resubmit (m : Manager) (now : Instant) (id : String) : Except Fault Bool × Manager :=
  match m.queue.get? id with
  | none => (.ok false, m)
  | some job =>
    match m.engine.update now job with
    | .error e => (.error (.unreadable e), m)
    | .ok engine => (.ok true, { m with engine := engine })

end Manager

end CronScale
