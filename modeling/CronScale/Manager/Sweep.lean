import CronScale.Manager.Desk
/-!
# Collecting lost jobs

A pass goes through a copy of the queue. The jobs of a resource that is gone are dropped. Any other
job is looked up in the agenda: if it is not there it is scheduled anew, and if it is out of date
it is moreover run once more. The reruns follow one another in the order in which they were missed.
Every resource is asked for once in a pass, unless asking failed; the jobs of a resource that could
not be asked for are passed over.
-/

namespace CronScale

open CronScale.Calendar

/-- What a pass has come to so far. -/
structure Sweep where
  counts : JobCounts := {}
  owners : List (OwnerKey × Option Resource) := []
  reruns : List (Instant × Job) := []

namespace Sweep

/-- The state that the status of a resource gives for a job. -/
def stateIn (r : Resource) (id : String) : Option JobState :=
  (r.status.bind fun s => s.conditions.find? (·.jobId == id)).map (·.state)

/-- Counts a job that is scheduled as it should be. -/
def countLive (c : JobCounts) : Option JobState → JobCounts
  | some .succeed => { c with succeeded := c.succeeded + 1 }
  | some .failed => { c with failed := c.failed + 1 }
  | _ => { c with submitted := c.submitted + 1 }

def countResubmitted (c : JobCounts) : JobCounts :=
  { c with failed := c.failed + 1, submitted := c.submitted + 1 }

def rerunEvent (job : Job) : Event :=
  ⟨.warning, "OutOfDate", "rerun out of date job: " ++ job.name⟩

/-- The resource of a job, from what is known in this pass or by asking for it. -/
def ownerOf (s : Sweep) (owner : OwnerKey) :
    Procedure Desk (Option (Option Resource) × Sweep) :=
  match s.owners.find? (·.1 = owner) with
  | some known => pure (some known.2, s)
  | none => do
    match ← Desk.fetch owner with
    | .ok r => pure (some r, { s with owners := (owner, r) :: s.owners })
    | .error _ => pure (none, s)

/-- Drops a job whose resource is gone. -/
def expire (s : Sweep) (job : Job) : Procedure Desk Sweep := do
  let _ ← Desk.delete job.id
  Desk.dropComplaint job.owner
  pure { s with counts := { s.counts with expired := s.counts.expired + 1 } }

def renew (s : Sweep) (job : Job) : Procedure Desk Sweep := do
  let _ ← Desk.resubmit job.id
  pure { s with counts := countResubmitted s.counts }

/-- Looks a job of an existing resource up, and schedules it anew if that is needed. -/
def inspect (s : Sweep) (r : Resource) (job : Job) : Procedure Desk Sweep := do
  match ← Desk.find job.id with
  | .found => pure { s with counts := countLive s.counts (stateIn r job.id) }
  | .outOfDate missed => do
    Desk.publish r (rerunEvent job)
    renew { s with reruns := s.reruns ++ [(missed, job)] } job
  | .notFound => renew s job

def visit (s : Sweep) (job : Job) : Procedure Desk Sweep := do
  let (owner, s) ← s.ownerOf job.owner
  match owner with
  | none => pure s
  | some none => s.expire job
  | some (some r) => s.inspect r job

def visitAll : Sweep → List Job → Procedure Desk Sweep
  | s, [] => pure s
  | s, j :: js => do
    let s ← s.visit j
    visitAll s js

/-- The jobs to be run once more, in the order in which they were missed. -/
def rerunOrder (s : Sweep) : List Job :=
  (s.reruns.mergeSort fun a b => decide (a.1 ≤ b.1)).map Prod.snd

end Sweep

def sweep : Procedure Desk JobCounts := do
  let jobs ← Desk.snapshot
  let s ← Sweep.visitAll {} jobs
  let left ← Desk.jobCount
  let counts := { s.counts with total := left }
  Desk.publishCounts counts
  match s.rerunOrder with
  | [] => pure counts
  | reruns => do
    Desk.startReruns reruns
    pure counts

end CronScale
