import CronScale.Engine.Agenda
/-!
# The engine

The engine goes through its agenda, fires what is due and sleeps until the earliest entry is next
due, but never longer than a minute. A change of the agenda wakes it at once; if it happens while
the engine does not sleep, the next sleep ends before it has begun. Time is counted in billionths of
a second from the start of 1970.
-/

namespace CronScale

open CronScale.Calendar

/-- Whether the engine is running, and until when it sleeps. -/
inductive EngineLoop where
  | stopped
  | sleeping (deadline : Int)
  deriving DecidableEq, Repr

/-- An agenda that is gone through. -/
structure Engine (J : Type) where
  agenda : Agenda J
  loop : EngineLoop
  /-- Whether the agenda has changed since it was last gone through. -/
  woken : Bool

def maxIdle : Int := 60 * nanosPerSecond

/-- How long to sleep before the next entry is due. -/
def idleFor (now : Instant) : Option Instant → Int
  | none => maxIdle
  | some t =>
    let wait := t.since now
    if wait < 0 then maxIdle else min maxIdle wait

namespace Engine

variable {J : Type}

def empty (zone : Zone) (staleness : Int) : Engine J := ⟨.empty zone staleness, .stopped, false⟩

instance : Inhabited (Engine J) := ⟨empty default 0⟩

/-- Takes an entry out of the agenda, which wakes the engine if there was one. -/
def remove (e : Engine J) (id : String) : Engine J :=
  if e.agenda.entries.contains id then
    { e with agenda := e.agenda.remove id, woken := true }
  else e

def has (e : Engine J) (id : String) : Bool := e.agenda.entries.contains id

/-- Lets the engine run; it goes through the agenda at once. -/
def start (e : Engine J) (now : Int) : Engine J := { e with loop := .sleeping now }

def stop (e : Engine J) : Engine J := { e with loop := .stopped }

def running (e : Engine J) : Bool := e.loop != .stopped

/-- When the engine's sleep ends. -/
def deadline? (e : Engine J) : Option Int :=
  match e.loop with
  | .stopped => none
  | .sleeping d => some d

variable [Schedulable J]

/-- Puts a job into the agenda, which wakes the engine. -/
def add (e : Engine J) (now : Instant) (expr : String) (job : J) :
    Except Schedule.ParseError (Engine J) :=
  (e.agenda.add now expr job).map fun a => { e with agenda := a, woken := true }

/-- Puts a job into the agenda under its own schedule. -/
def update (e : Engine J) (now : Instant) (job : J) : Except Schedule.ParseError (Engine J) :=
  e.add now (Schedulable.schedule job) job

/-- Goes through the agenda, and sleeps. -/
def dispatch (e : Engine J) (now : Int) : List J × Engine J :=
  let instant := Instant.ofNanos now
  let (due, agenda) := e.agenda.dispatch instant
  (due, ⟨agenda, .sleeping (now + idleFor instant agenda.earliest?), false⟩)

/-- What the engine does at a time: if it is running, and was woken or has slept long enough, it
goes through the agenda. -/
def turn (e : Engine J) (now : Int) : List J × Engine J :=
  match e.loop with
  | .stopped => ([], e)
  | .sleeping deadline => if e.woken || deadline ≤ now then e.dispatch now else ([], e)

end Engine

end CronScale
