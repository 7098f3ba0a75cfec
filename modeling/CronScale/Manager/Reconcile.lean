import CronScale.Manager.Conditions
import CronScale.Manager.Desk
import CronScale.Resource.Validation
/-!
# Bringing a resource into effect

Reconciling a resource brings the queue and the status in line with what the resource declares. When
the target or the excluded days have changed, all jobs of the resource are made anew. Otherwise a
condition is retained if its job is declared as before; the job of any other condition is dropped,
and a job that is declared differently gets the id of the dropped one. A job that runs once and has
run is dropped and keeps its condition. In the end no job of the resource stays queued that the
status does not name, and the status is written, against the version that was read, if anything in
it has changed.
-/

namespace CronScale

open CronScale.Calendar

/-- The joined complaints about a specification, if there are any. -/
def Spec.complaintText (s : Spec) : Option String :=
  match s.complaints with
  | [] => none
  | cs => some (Text.join "; " (cs.map Complaint.text))

/-- What reconciling has come to so far. -/
structure Draft where
  conditions : List Condition
  /-- Ids of dropped jobs that are declared differently now, by the names of the jobs. -/
  reusable : List (String × String)
  changed : Bool

def Draft.put (d : Draft) (c : Condition) : Draft :=
  { d with conditions := c.mergeByName d.conditions, changed := true }

namespace Reconcile

/-- Makes the complaint about a resource known if it is new. -/
def complain (key : OwnerKey) (r : Resource) : Procedure Desk Unit := do
  let complaint := r.spec.complaintText
  if ← Desk.note key complaint then
    match complaint with
    | none => pure ()
    | some c => Desk.publish r ⟨.warning, "InvalidSpec", c⟩
  else pure ()

/-- Whether a condition is still what a declaration asks for. -/
def unchanged (c : Condition) (j : JobSpec) : Bool :=
  c.schedule == j.schedule && c.runOnce == j.runOnce && c.targetSize == j.targetSize

/-- Drops the job of a condition, if it had one. -/
def dropJob (c : Condition) : Procedure Desk Unit := do
  if c.jobId = "" then pure ()
  else
    let _ ← Desk.delete c.jobId
    pure ()

/-- Divides the conditions of the last status: those retained, and the ids to be used again. The
jobs of all others are dropped. -/
def sift (spec : Spec) : List Condition →
    Procedure Desk (List Condition × List (String × String))
  | [] => pure ([], [])
  | c :: cs =>
    match spec.jobs.find? (·.name == c.name) with
    | some j =>
      if unchanged c j then do
        let (left, reusable) ← sift spec cs
        pure (c :: left, reusable)
      else do
        dropJob c
        let (left, reusable) ← sift spec cs
        pure (left, if c.jobId = "" then reusable else (c.name, c.jobId) :: reusable)
    | none => do
      dropJob c
      sift spec cs

/-- The last of the ids that were put by under a name. -/
def reusableId (reusable : List (String × String)) (name : String) : Option String :=
  ((reusable.filter (·.1 == name)).getLast?).map Prod.snd

/-- The id for a job without a retained condition: one put by, or the one under which the job is
queued, or else a fresh one. -/
def chooseId (key : OwnerKey) (d : Draft) (name : String) : Procedure Desk (String × Draft) :=
  match reusableId d.reusable name with
  | some id => pure (id, { d with reusable := d.reusable.filter (·.1 != name) })
  | none => do
    match ← Desk.queuedId key name with
    | some id => pure (id, d)
    | none => do
      let id ← Desk.freshId key name
      pure (id, d)

def conditionOf (j : JobSpec) (jobId : String) (state : JobState) (now : Instant)
    (message : String) : Condition :=
  ⟨j.name, jobId, j.schedule, j.targetSize, j.runOnce, state, now.textAt 0, message⟩

/-- What is said about a job that cannot be built. -/
def buildFailure (name : String) (e : Fault) : String :=
  "Failed to create cron hpa job " ++ name ++ ",because of " ++ e.message

/-- What is said about a job that cannot be queued. -/
def queueFailure (name : String) (e : Fault) : String :=
  "Failed to update cron hpa job " ++ name ++ ",because of " ++ e.message

/-- Queues a job and notes that it was submitted, unless it is queued already and has a retained
condition. -/
def submit (j : JobSpec) (job : Job) (now : Instant) (retained : Bool) (d : Draft) :
    Procedure Desk Draft := do
  match ← Desk.createOrUpdate job with
  | .ok change =>
    if change = .unchanged ∧ retained then pure d
    else pure (d.put (conditionOf j job.id .submitted now ""))
  | .error e => pure (d.put (conditionOf j job.id .failed now (queueFailure j.name e)))

/-- Notes that a job cannot be built, unless its retained condition says so already. -/
def refuse (j : JobSpec) (e : Fault) (now : Instant) (retained : Option Condition) (d : Draft) :
    Draft :=
  let message := buildFailure j.name e
  if retained.any fun c => c.state == .failed && c.message == message then d
  else d.put (conditionOf j "" .failed now message)

/-- Queues a job under the id of its retained condition, or drops it if it runs once and has run. -/
def settleKept (j : JobSpec) (job : Job) (kept : Condition) (now : Instant) (d : Draft) :
    Procedure Desk Draft := do
  if j.isRunOnce && kept.state.isTerminal then do
    let _ ← Desk.delete kept.jobId
    pure d
  else submit j { job with id := kept.jobId } now true d

/-- Queues a job for which no condition with an id was retained. -/
def settleNew (key : OwnerKey) (j : JobSpec) (job : Job) (now : Instant) (retained : Bool)
    (d : Draft) : Procedure Desk Draft := do
  let (id, d) ← chooseId key d j.name
  submit j { job with id := id } now retained d

/-- Brings one declared job into effect, given the conditions that were retained. -/
def settleJob (key : OwnerKey) (r : Resource) (left : List Condition) (j : JobSpec) (d : Draft) :
    Procedure Desk Draft := do
  let retained := left.find? (·.name == j.name)
  let now ← Desk.clock
  match Job.build r j "" with
  | .error e => pure (refuse j e now retained d)
  | .ok job =>
    match retained.filter (·.jobId != "") with
    | some kept => settleKept j job kept now d
    | none => settleNew key j job now retained.isSome d

/-- Brings all declared jobs into effect, one after another. -/
def settleJobs (key : OwnerKey) (r : Resource) (left : List Condition) :
    List JobSpec → Draft → Procedure Desk Draft
  | [], d => pure d
  | j :: js, d => do
    let d ← settleJob key r left j d
    settleJobs key r left js d

/-- The ids of jobs that conditions name. -/
def idsNamed (cs : List Condition) : List String := (cs.map (·.jobId)).filter (· != "")

/-- Divides the conditions of the last status, or drops all jobs if target or excluded days have
changed. -/
def divide (key : OwnerKey) (spec : Spec) (s : Status) :
    Procedure Desk (List Condition × List (String × String)) :=
  if s.globalChange spec then do
    let _ ← Desk.deleteOwnedBy key
    pure ([], [])
  else sift spec s.conditions

/-- The status with new conditions, and with the declared target and excluded days if they have
changed. -/
def adopt (spec : Spec) (s : Status) (conditions : List Condition) : Status :=
  if s.globalChange spec then ⟨some spec.target, spec.excludeDates, conditions⟩
  else { s with conditions := conditions }

/-- Writes the status; that the resource is gone by now is no fault. -/
def writeStatus (key : OwnerKey) (r : Resource) (s : Status) :
    Procedure Desk (Except Fault Unit) := do
  match ← Desk.patchStatus key s r.metadata.resourceVersion with
  | .ok () => pure (.ok ())
  | .error e => pure (if e.isMissing then .ok () else .error e)

def settleResource (key : OwnerKey) (r : Resource) : Procedure Desk (Except Fault Unit) := do
  complain key r
  let status := r.status.getD .initial
  let (left, reusable) ← divide key r.spec status
  let changed := status.globalChange r.spec || left.length != status.conditions.length
  let d ← settleJobs key r left r.spec.jobs ⟨left, reusable, changed⟩
  let _ ← Desk.retainOwned key (idsNamed d.conditions)
  if d.changed then writeStatus key r (adopt r.spec status d.conditions) else pure (.ok ())

end Reconcile

/-- Brings the resource with a key into effect; if there is none, lost jobs are collected. -/
def reconcile (key : OwnerKey) : Procedure Desk (Except Fault Unit) := do
  match ← Desk.fetch key with
  | .error e => pure (.error e)
  | .ok none => do
    let _ ← Desk.note key none
    let () ← Desk.startSweep
    pure (.ok ())
  | .ok (some r) => Reconcile.settleResource key r

end CronScale
