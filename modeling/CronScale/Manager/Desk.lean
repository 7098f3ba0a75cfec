import CronScale.Manager.Basic
import CronScale.Manager.Store
/-!
# What the manager's procedures ask for

The longer activities of the manager are procedures. They ask the home of the resources, and they
ask for the manager's own steps, each of which happens as a whole. Between two calls of a procedure
other procedures, firings and writers of resources may have their turn.
-/

namespace CronScale

open CronScale.Calendar

/-- A step of the manager's own. -/
inductive ManagerCall where
  | clock
  | note (owner : OwnerKey) (complaint : Option String)
  | dropComplaint (owner : OwnerKey)
  | createOrUpdate (job : Job)
  | delete (id : String)
  | deleteOwnedBy (owner : OwnerKey)
  | retainOwned (owner : OwnerKey) (keep : List String)
  | queuedId (owner : OwnerKey) (name : String)
  | snapshot
  | find (id : String)
  | resubmit (id : String)
  | jobCount

def ManagerCall.Reply : ManagerCall → Type
  | clock => Instant
  | note _ _ => Bool
  | dropComplaint _ => Unit
  | createOrUpdate _ => Except Fault QueueChange
  | delete _ => Bool
  | deleteOwnedBy _ => Nat
  | retainOwned _ _ => Nat
  | queuedId _ _ => Option String
  | snapshot => List Job
  | find _ => Lookup
  | resubmit _ => Except Fault Bool
  | jobCount => Nat

def Manager.answer (now : Instant) (m : Manager) : (c : ManagerCall) → c.Reply × Manager
  | .clock => (now, m)
  | .note owner complaint => m.note owner complaint
  | .dropComplaint owner => ((), m.dropComplaint owner)
  | .createOrUpdate job => m.createOrUpdate now job
  | .delete id => m.delete id
  | .deleteOwnedBy owner => m.deleteOwnedBy owner
  | .retainOwned owner keep => m.retainOwned owner keep
  | .queuedId owner name => (m.queuedId owner name, m)
  | .snapshot => (m.queue.values, m)
  | .find id => (m.engine.agenda.find now id, m)
  | .resubmit id => m.resubmit now id
  | .jobCount => (m.queue.size, m)

/-- What a procedure of the manager may ask for. -/
inductive DeskCall where
  | store (c : StoreCall)
  | manager (c : ManagerCall)
  | freshId (owner : OwnerKey) (name : String)
  | publishCounts (counts : JobCounts)
  | startSweep
  | startReruns (jobs : List Job)

def DeskCall.Reply : DeskCall → Type
  | store c => c.Reply
  | manager c => c.Reply
  | freshId _ _ => String
  | publishCounts _ => Unit
  | startSweep => Unit
  | startReruns _ => Unit

/-- The surroundings of the manager's procedures. -/
abbrev Desk : Interface := ⟨DeskCall, DeskCall.Reply⟩

namespace Desk

def ask (c : DeskCall) : Procedure Desk c.Reply := Procedure.call (I := Desk) c

def fetch (key : OwnerKey) : Procedure Desk (Except Fault (Option Resource)) :=
  ask (.store (.fetch key))

def patchStatus (key : OwnerKey) (status : Status) (version : Option String) :
    Procedure Desk (Except Fault Unit) :=
  ask (.store (.patchStatus key status version))

def publish (resource : Resource) (event : Event) : Procedure Desk Unit :=
  ask (.store (.publish resource event))

def clock : Procedure Desk Instant := ask (.manager .clock)

/-- Asks for an id for a job of a resource; it was never used before. -/
def freshId (owner : OwnerKey) (name : String) : Procedure Desk String :=
  ask (.freshId owner name)

/-- Remembers the complaint about a resource, and asks whether it has to be made known. -/
def note (owner : OwnerKey) (complaint : Option String) : Procedure Desk Bool :=
  ask (.manager (.note owner complaint))

def dropComplaint (owner : OwnerKey) : Procedure Desk Unit := ask (.manager (.dropComplaint owner))

def createOrUpdate (job : Job) : Procedure Desk (Except Fault QueueChange) :=
  ask (.manager (.createOrUpdate job))

def delete (id : String) : Procedure Desk Bool := ask (.manager (.delete id))

def deleteOwnedBy (owner : OwnerKey) : Procedure Desk Nat := ask (.manager (.deleteOwnedBy owner))

/-- Forgets a resource with its jobs, and says how many there were. -/
def forget (owner : OwnerKey) : Procedure Desk Nat := do
  dropComplaint owner
  deleteOwnedBy owner

/-- Takes the jobs of a resource out whose ids are not to be kept. -/
def retainOwned (owner : OwnerKey) (keep : List String) : Procedure Desk Nat :=
  ask (.manager (.retainOwned owner keep))

/-- Asks for the id under which a job of a resource is queued. -/
def queuedId (owner : OwnerKey) (name : String) : Procedure Desk (Option String) :=
  ask (.manager (.queuedId owner name))

def snapshot : Procedure Desk (List Job) := ask (.manager .snapshot)

def find (id : String) : Procedure Desk Lookup := ask (.manager (.find id))

def resubmit (id : String) : Procedure Desk (Except Fault Bool) := ask (.manager (.resubmit id))

def jobCount : Procedure Desk Nat := ask (.manager .jobCount)

def publishCounts (counts : JobCounts) : Procedure Desk Unit := ask (.publishCounts counts)

def startSweep : Procedure Desk Unit := ask .startSweep

/-- Starts to carry out jobs one after another, whose outcomes nobody waits for. -/
def startReruns (jobs : List Job) : Procedure Desk Unit := ask (.startReruns jobs)

end Desk

end CronScale
