import CronScale.Manager.Controller
import CronScale.Manager.Record
import CronScale.Rehearsal.Scaler
import CronScale.Rehearsal.Store
/-!
# Rehearsing the manager

The manager is rehearsed with resources in memory and a scripted cluster. Time stands still until
everything that needs no time has happened, and then jumps to the next moment at which something
is due. The procedures of the manager run in one go. What was fired runs to its end even if the
manager is stopped meanwhile; its outcome is lost then, as is one that a former manager fired.
-/

namespace CronScale.Rehearsal

open CronScale.Calendar

/-- What happens after an execution. -/
inductive After where
  /-- Its outcome is delivered to the manager with a number. -/
  | report (manager : Nat)
  /-- Other jobs are run, one after another. -/
  | rerun (rest : List Job)

/-- An execution and what happens after it. -/
structure Task where
  work : Work
  after : After

/-- Resources that are followed: those to be listed, and reconciles to be repeated. -/
structure Watching where
  listed : List OwnerKey
  retries : Table OwnerKey Int := Table.empty

/-- A manager in a rehearsal. -/
structure ManagerStage where
  start : Int
  now : Int
  settings : ManagerSettings
  manager : Manager
  store : MemoryStore := {}
  scaler : ScriptedScaler := {}
  gauges : JobCounts := {}
  /-- The ids that were given out. -/
  issued : List String := []
  /-- The number of tasks so far. -/
  tasks : Nat := 0
  underway : List Task := []
  /-- The passes that have been asked for. -/
  sweeps : Nat := 0
  /-- The number of the manager. -/
  generation : Nat := 0
  /-- Whether the manager has ever been started. -/
  used : Bool := false
  running : Bool := false
  /-- When the next pass is due. -/
  sweepDue : Int := 0
  watching : Option Watching := none

namespace ManagerStage

def instant (s : ManagerStage) : Instant := Instant.ofMillis s.now

def freshId (n : Nat) : String :=
  let digits := Text.hexadecimal n
  "00000000-0000-4000-8000-" ++ String.ofList (List.replicate (12 - digits.length) '0') ++ digits

/-- Begins to carry out a job as a task of its own. -/
def spawn (s : ManagerStage) (job : Job) (after : After) : ManagerStage :=
  { s with
    tasks := s.tasks + 1
    underway := s.underway ++ [⟨Work.begin s.settings.execution s.now s.tasks job, after⟩] }

def spawnReruns (s : ManagerStage) : List Job → ManagerStage
  | [] => s
  | j :: js => s.spawn j (.rerun js)

def answer : (c : DeskCall) → ManagerStage → c.Reply × ManagerStage
  | .store c, s =>
    let (r, store) := MemoryStore.answer s.now c s.store
    (r, { s with store := store })
  | .manager c, s =>
    let (r, manager) := s.manager.answer s.instant c
    (r, { s with manager := manager })
  | .freshId _ _, s =>
    let id := freshId s.issued.length
    (id, { s with issued := s.issued ++ [id] })
  | .publishCounts counts, s => ((), { s with gauges := counts })
  | .startSweep, s => ((), { s with sweeps := s.sweeps + 1 })
  | .startReruns jobs, s => ((), s.spawnReruns jobs)

def run {α : Type} (s : ManagerStage) (p : Procedure Desk α) : α × ManagerStage :=
  p.run answer s

def take (s : ManagerStage) (c : ManagerCall) : c.Reply × ManagerStage := answer (.manager c) s

def runSweeps (s : ManagerStage) : ManagerStage :=
  (List.replicate s.sweeps ()).foldl (fun s _ => (s.run sweep).2) { s with sweeps := 0 }

def dispatch (s : ManagerStage) : ManagerStage :=
  let (due, engine) := s.manager.engine.turn (inNanos s.now)
  due.foldl (fun s j => s.spawn j (.report s.generation))
    { s with manager := { s.manager with engine := engine } }

def sweepIfDue (s : ManagerStage) : ManagerStage :=
  if s.running && s.sweepDue ≤ s.now then
    { (s.run sweep).2 with sweepDue := s.sweepDue + s.settings.gcInterval }
  else s

def reconcileWatched (s : ManagerStage) (key : OwnerKey) : ManagerStage :=
  let (r, s) := s.run (reconcile key)
  match s.watching, r with
  | none, _ => s
  | some w, .ok () => { s with watching := some { w with retries := w.retries.erase key } }
  | some w, .error _ =>
    { s with watching := some { w with retries := w.retries.insert key (s.now + retryReconcile) } }

def retryIfDue (s : ManagerStage) : ManagerStage :=
  match s.watching with
  | none => s
  | some w =>
    ((w.retries.rows.filter fun r => r.2 ≤ s.now).map Prod.fst).foldl reconcileWatched s

/-- What happens after an execution that has ended. -/
def finish (s : ManagerStage) (w : Work) (after : After) (outcome : Except Fault Report) :
    ManagerStage :=
  match after with
  | .report generation =>
    if generation = s.generation && s.running then
      (s.run (record s.settings w.job (outcome.map Report.message))).2
    else s
  | .rerun [] => s
  | .rerun (j :: js) =>
    { s with
      underway := s.underway ++ [⟨Work.begin s.settings.execution s.now w.task j, .rerun js⟩] }

def advanceTask (s : ManagerStage) (t : Task) : ManagerStage :=
  let (w, scaler) := t.work.settle s.settings.execution s.now Work.stepBound s.scaler
  let s := { s with scaler := scaler }
  match w.outcome? with
  | some o => s.finish w t.after o
  | none => { s with underway := s.underway ++ [⟨w, t.after⟩] }

def advanceTasks (s : ManagerStage) : ManagerStage :=
  s.underway.foldl advanceTask { s with underway := [] }

def canAdvance (now : Int) (t : Task) : Bool :=
  match t.work.due? with
  | some d => d ≤ now
  | none => true

/-- Whether something is left to happen at the present moment. -/
def busy (s : ManagerStage) : Bool :=
  s.sweeps != 0 || (s.manager.engine.running && s.manager.engine.woken) ||
    s.underway.any (canAdvance s.now)

/-- Lets everything happen that needs no time, in rounds up to a bound. -/
def settleRounds : Nat → ManagerStage → ManagerStage
  | 0, s => s
  | n + 1, s =>
    let s := s.runSweeps.dispatch.sweepIfDue.retryIfDue.advanceTasks
    if s.busy then settleRounds n s else s

def roundBound : Nat := 100000

def settle (s : ManagerStage) : ManagerStage := s.settleRounds roundBound

/-- The next moment at which something is due. -/
def nextDue (s : ManagerStage) : Option Int :=
  ((s.manager.engine.deadline?.map fullMillis).toList ++
    (if s.running then [s.sweepDue] else []) ++
    s.underway.filterMap (·.work.due?) ++
    (match s.watching with
      | none => []
      | some w => w.retries.values)).min?

/-- Passes on to a time; the number of jumps is at most the number of milliseconds. -/
def passTo (target : Int) : Nat → ManagerStage → ManagerStage
  | 0, s => { s with now := target }
  | n + 1, s =>
    match s.nextDue with
    | none => { s with now := target }
    | some t =>
      if t ≤ target then passTo target n { s with now := max t s.now }.settle
      else { s with now := target }

def pass (s : ManagerStage) (ms : Nat) : ManagerStage := s.passTo (s.now + ms) (ms + 1)

/-- Starts the manager, unless it was started before. -/
def startManager (s : ManagerStage) : Bool × ManagerStage :=
  if s.used then (false, s)
  else
    (true, { s with
      used := true
      running := true
      sweepDue := s.now + s.settings.gcInterval
      manager := { s.manager with engine := s.manager.engine.start (inNanos s.now) } })

def stopManager (s : ManagerStage) : Bool × ManagerStage :=
  (s.running,
    { s with
      running := false
      manager := { s.manager with engine := s.manager.engine.stop } })

/-- The staleness of a manager that takes the place of another, in billionths of a second. -/
def standardStaleness : Int := 300 * nanosPerSecond

/-- Puts a new manager in the place of the present one. -/
def restart (s : ManagerStage) : ManagerStage :=
  { s with
    manager := .empty s.settings.execution.zone standardStaleness
    generation := s.generation + 1
    used := false
    running := false }

def observe (s : ManagerStage) (w : Watching) (e : WatchEvent) : ManagerStage :=
  let w : Watching := match e with
    | .applied _ => w
    | .deleted key => { w with retries := w.retries.erase key }
    | .restarted keys => { w with retries := w.retries.filter fun k _ => keys.contains k }
  let s := { s with watching := some w }
  e.touched.foldl reconcileWatched (s.run (watchDeletions e)).2

def watch (s : ManagerStage) (listed : List OwnerKey) : ManagerStage :=
  s.observe { listed := listed } (.restarted listed)

end ManagerStage

end CronScale.Rehearsal
