import CronScale.Scaling.Execution
import CronScale.Table
/-!
# A scripted cluster

In a rehearsal a scripted cluster answers the calls of attempts. It knows sizes of targets and some
autoscalers, and a script of hitches: a call may be held up for a time, and it may fail. Calls are
logged when they are made; what they answer is looked up when they are answered.
-/

namespace CronScale.Rehearsal

open CronScale.Calendar

/-- What happens to a call. -/
structure Hitch where
  delay : Nat
  fault : Option Fault
  deriving Inhabited

/-- The kinds of call. -/
inductive ScalerMethod where
  | getScale
  | updateScale
  | getAutoscaler
  | updateAutoscaler
  deriving DecidableEq, Repr

def methodOf : ScalerCall → ScalerMethod
  | .getScale _ => .getScale
  | .updateScale _ _ => .updateScale
  | .getAutoscaler _ _ => .getAutoscaler
  | .updateAutoscaler _ => .updateAutoscaler

/-- A call with the task that made it and when. -/
structure LoggedCall where
  time : Int
  task : Nat
  call : ScalerCall

/-- A cluster with a script. -/
structure ScriptedScaler where
  /-- The sizes of targets, by how they are shown. -/
  sizes : Table String Int := Table.empty
  /-- The autoscalers, by namespace and name. -/
  autoscalers : Table String Autoscaler := Table.empty
  /-- What happens to the next calls of each kind; an empty place is a call without a hitch. -/
  script : Table ScalerMethod (List (Option Hitch)) := Table.empty
  /-- What happens to the calls of a kind when its script is used up. -/
  always : Table ScalerMethod Hitch := Table.empty
  log : List LoggedCall := []

instance : Inhabited ScriptedScaler := ⟨{}⟩

namespace ScriptedScaler

def takeHitch (s : ScriptedScaler) (m : ScalerMethod) : Option Hitch × ScriptedScaler :=
  match (s.script.get? m).getD [] with
  | h :: hs => (h, { s with script := s.script.insert m hs })
  | [] => (s.always.get? m, s)

def autoscalerKey (a : Autoscaler) : String :=
  (a.metadata.ns.getD "default") ++ "/" ++ (a.metadata.name.getD "")

def reply (s : ScriptedScaler) : (c : ScalerCall) → c.Reply × ScriptedScaler
  | .getScale t => (.ok ((s.sizes.get? t.text).getD 1), s)
  | .updateScale _ _ => (.ok (), s)
  | .getAutoscaler ns name =>
    let key := ns ++ "/" ++ name
    match s.autoscalers.get? key with
    | some a => (.ok a, s)
    | none => (.error (.missing key), s)
  | .updateAutoscaler a =>
    (.ok (), { s with autoscalers := s.autoscalers.insert (autoscalerKey a) a })

def refuse (e : Fault) : (c : ScalerCall) → c.Reply
  | .getScale _ => .error e
  | .updateScale _ _ => .error e
  | .getAutoscaler _ _ => .error e
  | .updateAutoscaler _ => .error e

def answer (s : ScriptedScaler) (h : Option Hitch) (c : ScalerCall) : c.Reply × ScriptedScaler :=
  match h.bind (·.fault) with
  | some e => (refuse e c, s)
  | none => s.reply c

def note (s : ScriptedScaler) (time : Int) (task : Nat) (c : ScalerCall) : ScriptedScaler :=
  { s with log := s.log ++ [⟨time, task, c⟩] }

end ScriptedScaler

/-- An execution under way. -/
structure Work where
  task : Nat
  job : Job
  state : Execution
  /-- When the call that was made is answered, and what happens to it. -/
  held : Option (Int × Option Hitch) := none

namespace Work

/-- One step that needs no time, if there is one. -/
def step (settings : ExecutionSettings) (now : Int) (w : Work) (s : ScriptedScaler) :
    Option (Work × ScriptedScaler) :=
  match w.state with
  | .ended _ => none
  | .waiting _ _ due =>
    if due ≤ now then some ({ w with state := w.state.settle w.job settings now }, s) else none
  | .attempting _ _ (.done _) => some ({ w with state := w.state.settle w.job settings now }, s)
  | .attempting started failures (.ask c next) =>
    match w.held with
    | none =>
      let (h, s) := (s.note now w.task c).takeHitch (methodOf c)
      some ({ w with held := some (now + (h.map (·.delay)).getD 0, h) }, s)
    | some (due, h) =>
      if due ≤ now then
        let (r, s) := s.answer h c
        some ({ w with state := .attempting started failures (next r), held := none }, s)
      else none

/-- Takes all steps that need no time, up to a bound on their number. -/
def settle (settings : ExecutionSettings) (now : Int) :
    Nat → Work → ScriptedScaler → Work × ScriptedScaler
  | 0, w, s => (w, s)
  | n + 1, w, s =>
    match w.step settings now s with
    | none => (w, s)
    | some (w, s) => settle settings now n w s

def due? (w : Work) : Option Int :=
  match w.state with
  | .ended _ => none
  | .waiting _ _ due => some due
  | .attempting _ _ _ => w.held.map Prod.fst

def outcome? (w : Work) : Option (Except Fault Report) :=
  match w.state with
  | .ended o => some o
  | _ => none

/-- A bound on the steps that an execution takes at one moment. -/
def stepBound : Nat := 100000

def begin (settings : ExecutionSettings) (now : Int) (task : Nat) (job : Job) : Work :=
  { task := task, job := job, state := job.execute settings now }

end Work

/-- A single execution in a rehearsal: its outcome, when it ends and the cluster after it. -/
def rehearseExecution (settings : ExecutionSettings) :
    Nat → Int → Work → ScriptedScaler → Option (Except Fault Report × Int × ScriptedScaler)
  | 0, _, _, _ => none
  | n + 1, now, w, s =>
    let (w, s) := w.settle settings now Work.stepBound s
    match w.outcome?, w.due? with
    | some o, _ => some (o, now, s)
    | none, some due => rehearseExecution settings n due w s
    | none, none => none

end CronScale.Rehearsal
