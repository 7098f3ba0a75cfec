import CronScale.Engine.Basic
import CronScale.Fault
/-!
# Rehearsing the engine

In a rehearsal time stands still until everything that can happen has happened, and then jumps to
the next moment at which something is due. The engine is rehearsed with scripted jobs: each run of
one takes a given time and then has a given outcome. A jump never passes by a moment at which
something is due, so nothing happens late. The clock of a rehearsal shows milliseconds.
-/

namespace CronScale.Rehearsal

open CronScale.Calendar

/-- A job that takes some milliseconds and then has its outcome. -/
structure ScriptedJob where
  id : String
  name : String
  owner : OwnerKey
  schedule : String
  once : Bool
  delay : Nat
  outcome : Except Fault String

instance : Schedulable ScriptedJob where
  id := ScriptedJob.id
  name := ScriptedJob.name
  owner := ScriptedJob.owner
  schedule := ScriptedJob.schedule
  runOnce := ScriptedJob.once

/-- An engine in a rehearsal, with the runs under way, the runs begun and the outcomes that have
arrived in the present step. -/
structure EngineStage where
  start : Int
  now : Int
  engine : Engine ScriptedJob
  /-- Whether nobody listens for outcomes any more. -/
  closed : Bool := false
  /-- The runs under way, each with the time at which it ends. -/
  running : List (Int × ScriptedJob) := []
  /-- The runs begun in this step, each with its time since the start. -/
  begun : List (Int × String) := []
  /-- The outcomes that have arrived in this step. -/
  arrived : List (String × Except Fault String) := []

namespace EngineStage

def dispatch (s : EngineStage) : EngineStage :=
  let (due, engine) := s.engine.turn (inNanos s.now)
  { s with
    engine := engine
    running := s.running ++ due.map fun j => (s.now + j.delay, j)
    begun := s.begun ++ due.map fun j => (s.now - s.start, j.id) }

/-- Delivers the outcomes of the runs that are over. -/
def deliver (s : EngineStage) : EngineStage :=
  let finished := s.running.filter fun r => r.1 ≤ s.now
  { s with
    running := s.running.filter fun r => !(r.1 ≤ s.now)
    arrived :=
      if s.closed then s.arrived
      else s.arrived ++ finished.map fun r => (r.2.id, r.2.outcome) }

/-- Lets everything happen that needs no time. -/
def settle (s : EngineStage) : EngineStage := s.dispatch.deliver

/-- The next moment at which something is due. -/
def nextDue (s : EngineStage) : Option Int :=
  ((s.engine.deadline?.map fullMillis).toList ++ s.running.map Prod.fst).min?

/-- Passes on to a time; the number of jumps is at most the number of milliseconds. -/
def passTo (target : Int) : Nat → EngineStage → EngineStage
  | 0, s => { s with now := target }
  | n + 1, s =>
    match s.nextDue with
    | none => { s with now := target }
    | some t =>
      if t ≤ target then passTo target n { s with now := max t s.now }.settle
      else { s with now := target }

def pass (s : EngineStage) (ms : Nat) : EngineStage := s.passTo (s.now + ms) (ms + 1)

def instant (s : EngineStage) : Instant := Instant.ofMillis s.now

/-- A change of the agenda, or what stands against it. -/
def change (s : EngineStage) (e : Except Schedule.ParseError (Engine ScriptedJob)) :
    Except Fault Unit × EngineStage :=
  match e with
  | .ok engine => (.ok (), { s with engine := engine })
  | .error e => (.error (.unreadable e), s)

def clear (s : EngineStage) : EngineStage := { s with begun := [], arrived := [] }

end EngineStage

end CronScale.Rehearsal
