import CronScale.Scaling.Attempt
import CronScale.Schedule.Exclusion
/-!
# Carrying out a job

A job whose day is excluded rests: nothing is asked of the cluster. Any other job is attempted, and
after a failure attempted again once the retry interval has passed, until an attempt succeeds or
fails with the retry timeout over. Time is counted in milliseconds. Every step of an execution is
a function of the time at which it is taken; how long a call takes is up to the surroundings.
-/

namespace CronScale

open CronScale.Calendar

/-- How often and how long failed attempts are repeated, and the zone of the excluded days. -/
structure ExecutionSettings where
  retryInterval : Nat
  retryTimeout : Nat
  zone : Zone
  deriving Inhabited

/-- Where an execution stands. -/
inductive Execution where
  /-- An attempt is under way. -/
  | attempting (started : Int) (failures : Nat) (rest : Procedure Scaler (Except Fault Report))
  /-- The next attempt is due at a time. -/
  | waiting (started : Int) (failures : Nat) (due : Int)
  /-- Nothing more will be done. -/
  | ended (outcome : Except Fault Report)

namespace Job

/-- The fault that ends an execution. -/
def gaveUp (j : Job) (attempts : Nat) (last : Fault) : Fault :=
  .gaveUp j.target.kind j.target.name j.target.ns j.desiredSize attempts last

def execute (j : Job) (s : ExecutionSettings) (now : Int) : Execution :=
  match Schedule.excludedBy j.excludeDates s.zone (Instant.ofMillis now) with
  | some expr => .ended (.ok (.rested expr))
  | none => .attempting now 0 j.attempt

/-- What follows the end of an attempt: an end by success or by timeout, or a wait. -/
def afterAttempt (j : Job) (s : ExecutionSettings) (started : Int) (failures : Nat) (now : Int)
    (outcome : Except Fault Report) : Execution :=
  match outcome with
  | .ok report => .ended (.ok report)
  | .error e =>
    if (s.retryTimeout : Int) ≤ now - started then .ended (.error (j.gaveUp (failures + 1) e))
    else .waiting started (failures + 1) (now + s.retryInterval)

end Job

namespace Execution

/-- Takes the step that needs no time: an attempt that is done is judged, and a wait that is over
ends with the next attempt. An execution that is at rest or has asked for something stays. -/
def settle (j : Job) (s : ExecutionSettings) (now : Int) : Execution → Execution
  | attempting started failures (.done outcome) => j.afterAttempt s started failures now outcome
  | waiting started failures due =>
    if due ≤ now then attempting started failures j.attempt else waiting started failures due
  | e => e

end Execution

end CronScale
