import CronScale.Procedure
import CronScale.Scaling.Autoscaler
import CronScale.Scaling.Job
/-!
# Attempts to scale

One attempt asks the cluster for the size of the target and then sets it. If the target is an
autoscaler, the size is set on its workload, after the bounds have been moved to hold the size; a
workload that is already large enough is left as it is. An attempt ends with the first call that
fails.
-/

namespace CronScale

/-- What an attempt may ask the cluster for. -/
inductive ScalerCall where
  | getScale (target : TargetRef)
  | updateScale (target : TargetRef) (size : Int)
  | getAutoscaler (ns name : String)
  | updateAutoscaler (autoscaler : Autoscaler)
  deriving Inhabited

def ScalerCall.Reply : ScalerCall → Type
  | getScale _ => Except Fault Int
  | updateScale _ _ => Except Fault Unit
  | getAutoscaler _ _ => Except Fault Autoscaler
  | updateAutoscaler _ => Except Fault Unit

abbrev Scaler : Interface := ⟨ScalerCall, ScalerCall.Reply⟩

/-- What a run has come to. -/
inductive Report where
  | rested (expr : String)
  | scaled (current desired : Int)
  | largeEnough (autoscaler : String) (current desired : Int)
  deriving DecidableEq, Repr

def Report.message : Report → String
  | rested expr => "skip scaling activity,because of excludeDate (" ++ expr ++ ")."
  | scaled current desired =>
    "current replicas:" ++ toString current ++ ", desired replicas:" ++ toString desired ++ "."
  | largeEnough name current desired =>
    "Skip scale replicas because HPA " ++ name ++ " current replicas:" ++ toString current ++
      " >= desired replicas:" ++ toString desired ++ "."

namespace Scaler

def getScale (t : TargetRef) : Procedure Scaler (Except Fault Int) :=
  Procedure.call (I := Scaler) (ScalerCall.getScale t)

def updateScale (t : TargetRef) (size : Int) : Procedure Scaler (Except Fault Unit) :=
  Procedure.call (I := Scaler) (ScalerCall.updateScale t size)

def getAutoscaler (ns name : String) : Procedure Scaler (Except Fault Autoscaler) :=
  Procedure.call (I := Scaler) (ScalerCall.getAutoscaler ns name)

def updateAutoscaler (a : Autoscaler) : Procedure Scaler (Except Fault Unit) :=
  Procedure.call (I := Scaler) (ScalerCall.updateAutoscaler a)

end Scaler

namespace Job

def failed (e : Fault) : Procedure Scaler (Except Fault Report) := pure (.error e)

/-- Sets the size of a workload after its size before has been learnt. -/
def setSize (j : Job) (workload : TargetRef) (current : Int) :
    Procedure Scaler (Except Fault Report) := do
  match ← Scaler.updateScale workload j.desiredSize with
  | .error e => failed e
  | .ok () => pure (.ok (.scaled current j.desiredSize))

def scaleWorkload (j : Job) : Procedure Scaler (Except Fault Report) := do
  match ← Scaler.getScale j.target with
  | .error e => failed e
  | .ok current => j.setSize j.target current

/-- The workload of an autoscaler, in the namespace of the target. -/
def workloadOf (j : Job) (w : WorkloadRef) : TargetRef :=
  TargetRef.ofApiVersion w.name j.target.ns w.kind (w.apiVersion.getD "")

/-- Sets the size of an autoscaler's workload unless it is large enough. -/
def growWorkload (j : Job) (name : String) (workload : TargetRef) (said current : Int) :
    Procedure Scaler (Except Fault Report) :=
  if j.desiredSize ≤ said then pure (.ok (.largeEnough name current j.desiredSize))
  else j.setSize workload current

/-- One attempt to scale what an autoscaler looks after. -/
def scaleAutoscaler (j : Job) : Procedure Scaler (Except Fault Report) := do
  match ← Scaler.getAutoscaler j.target.ns j.target.name with
  | .error e => failed e
  | .ok a =>
    let name := a.metadata.name.getD j.target.name
    match a.spec with
    | none => failed (.noAutoscalerSpec name)
    | some spec =>
      let workload := j.workloadOf spec.workload
      match ← Scaler.getScale workload with
      | .error e => failed e
      | .ok current =>
        if spec.bounds.mustMove a.currentSize j.desiredSize then
          let bounds := spec.bounds.widen a.currentSize j.desiredSize
          let wider := { a with spec := some { spec with bounds := bounds } }
          match ← Scaler.updateAutoscaler wider with
          | .error e => failed e
          | .ok () => j.growWorkload name workload a.currentSize current
        else j.growWorkload name workload a.currentSize current

def attempt (j : Job) : Procedure Scaler (Except Fault Report) :=
  if j.target.isAutoscaler then j.scaleAutoscaler else j.scaleWorkload

end Job

end CronScale
