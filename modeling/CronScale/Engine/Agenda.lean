import CronScale.Resource.Basic
import CronScale.Schedule.Next
import CronScale.Table
/-!
# The agenda

The agenda holds the jobs that are to be run, under their ids, each with its schedule, the time it
was last due and the time it is next due. A job that runs once has no next time after it was due.
An entry is put in only with an expression that can be read, and then is next due at the first time
after that moment. When the agenda is gone through, every entry that is due is taken once, however
often it was due since.
-/

namespace CronScale

open CronScale.Calendar

/-- What the agenda has to know about a job. -/
class Schedulable (J : Type) where
  id : J → String
  name : J → String
  owner : J → OwnerKey
  schedule : J → String
  runOnce : J → Bool

/-- A job in the agenda. -/
structure Entry (J : Type) where
  job : J
  expr : String
  schedule : Schedule
  prev : Option Instant
  next : Option Instant

/-- What is shown of an entry. -/
structure EntryView where
  id : String
  name : String
  owner : OwnerKey
  schedule : String
  prev : Option String
  next : Option String
  deriving DecidableEq, Repr, Inhabited

/-- What a look at an entry tells. -/
inductive Lookup where
  | found
  | outOfDate (missed : Instant)
  | notFound
  deriving DecidableEq, Repr

/-- The jobs that are to be run. -/
structure Agenda (J : Type) where
  zone : Zone
  /-- How late a job may be before it is out of date, in billionths of a second. -/
  staleness : Int
  entries : Table String (Entry J)

namespace Agenda

variable {J : Type}

def empty (zone : Zone) (staleness : Int) : Agenda J := ⟨zone, staleness, Table.empty⟩

instance : Inhabited (Agenda J) := ⟨empty default 0⟩

def isDue (now : Instant) (e : Entry J) : Bool :=
  match e.next with
  | some t => decide (t ≤ now)
  | none => false

def earliestOf : List Instant → Option Instant
  | [] => none
  | t :: ts =>
    match earliestOf ts with
    | none => some t
    | some u => some (t.earlier u)

/-- The earliest time at which an entry is next due. -/
def earliest? (a : Agenda J) : Option Instant :=
  earliestOf (a.entries.values.filterMap (·.next))

variable [Schedulable J]

/-- Puts a job in under an expression, in the place of any entry with its id. -/
def add (a : Agenda J) (now : Instant) (expr : String) (job : J) :
    Except Schedule.ParseError (Agenda J) :=
  match Schedule.parse expr with
  | .error e => .error e
  | .ok s =>
    let entry : Entry J := ⟨job, expr, s, none, s.nextAfter a.zone now⟩
    .ok { a with entries := a.entries.insert (Schedulable.id job) entry }

def remove (a : Agenda J) (id : String) : Agenda J := { a with entries := a.entries.erase id }

def find (a : Agenda J) (now : Instant) (id : String) : Lookup :=
  match a.entries.get? id with
  | none => .notFound
  | some e =>
    match e.next with
    | none => .found
    | some t => if a.staleness < now.since t then .outOfDate t else .found

/-- An entry after it was due. -/
def fired (zone : Zone) (now : Instant) (e : Entry J) : Entry J :=
  { e with
    prev := e.next
    next := if Schedulable.runOnce e.job then none else e.schedule.nextAfter zone now }

/-- The jobs that are due, and the agenda after they were taken. -/
def dispatch (a : Agenda J) (now : Instant) : List J × Agenda J :=
  ((a.entries.values.filter (isDue now)).map (·.job),
    { a with entries := a.entries.map fun e => if isDue now e then fired a.zone now e else e })

def view (a : Agenda J) (id : String) (e : Entry J) : EntryView :=
  ⟨id, Schedulable.name e.job, Schedulable.owner e.job, e.expr,
    e.prev.map a.zone.text, e.next.map a.zone.text⟩

/-- Lexicographic order of texts. -/
def textsLe : List String → List String → Bool
  | [], _ => true
  | _ :: _, [] => false
  | a :: as, b :: bs => if a < b then true else if a = b then textsLe as bs else false

/-- The order in which entries are shown: by resource, then by the name of the job. -/
def viewLe (a b : EntryView) : Bool :=
  textsLe [a.owner.ns, a.owner.name, a.name, a.id] [b.owner.ns, b.owner.name, b.name, b.id]

def views (a : Agenda J) : List EntryView :=
  (a.entries.rows.map fun r => a.view r.1 r.2).mergeSort viewLe

end Agenda

end CronScale
