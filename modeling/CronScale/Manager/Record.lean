import CronScale.Manager.Conditions
import CronScale.Manager.Desk
/-!
# Recording an outcome

The outcome of a run is written into the status of the resource that the job belongs to, and then
made known. Every attempt starts from a fresh copy of the resource and writes against its version,
so that nothing written in the meantime is lost. A failed copy and a refused write cost an
attempt; a resource that is gone ends the recording. When all attempts are used up and a write had
been refused, that is made known instead.
-/

namespace CronScale

open CronScale.Calendar

namespace Record

def stateOf : Except Fault String → JobState
  | .ok _ => .succeed
  | .error _ => .failed

def messageOf (name : String) : Except Fault String → String
  | .ok m => "cron hpa job " ++ name ++ " executed successfully. " ++ m
  | .error e => "cron hpa failed to execute, because of " ++ e.message

def kindOf : Except Fault String → EventKind
  | .ok _ => .normal
  | .error _ => .warning

def conditionOf (job : Job) (outcome : Except Fault String) (now : Instant) : Condition :=
  ⟨job.name, job.id, job.schedule, job.desiredSize, job.runOnce, stateOf outcome, now.textAt 0,
    messageOf job.name outcome⟩

def eventOf (job : Job) (outcome : Except Fault String) : Event :=
  ⟨kindOf outcome, (stateOf outcome).name, messageOf job.name outcome⟩

/-- The news that an outcome could not be written. -/
def failureEvent (e : Fault) : Event :=
  ⟨.warning, "Failed", "Failed to update cronhpa status: " ++ e.message⟩

/-- A status with the condition that an outcome leaves. -/
def merged (s : Status) (c : Condition) : Status :=
  { s with conditions := c.mergeByJob s.conditions }

/-- Tells of the last refused write, if there was one. -/
def giveUp : Option (Resource × Fault) → Procedure Desk Unit
  | none => pure ()
  | some (r, e) => Desk.publish r (failureEvent e)

/-- Tries to write a condition a number of times. -/
def attempts (owner : OwnerKey) (c : Condition) (event : Event) :
    Nat → Option (Resource × Fault) → Procedure Desk Unit
  | 0, last => giveUp last
  | n + 1, last => do
    match ← Desk.fetch owner with
    | .error _ => attempts owner c event n last
    | .ok none => pure ()
    | .ok (some r) =>
      match ← Desk.patchStatus owner (merged (r.status.getD .initial) c)
          r.metadata.resourceVersion with
      | .ok () => Desk.publish r event
      | .error e => if e.isMissing then pure () else attempts owner c event n (some (r, e))

end Record

def record (settings : ManagerSettings) (job : Job) (outcome : Except Fault String) :
    Procedure Desk Unit := do
  let now ← Desk.clock
  Record.attempts job.owner (Record.conditionOf job outcome now) (Record.eventOf job outcome)
    (max 1 settings.statusPatchRetries) none

end CronScale
