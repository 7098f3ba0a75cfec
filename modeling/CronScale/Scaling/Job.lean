import CronScale.Resource.Basic
import CronScale.Scaling.Target
/-!
# Jobs

A job is one declared size change, with all that is needed to carry it out: the target, the days on
which it rests and the resource that it belongs to. It is built from a declaration only if the
target is complete, the schedule can be read and the size is not negative.
-/

namespace CronScale

open CronScale.Text

/-- A size change at certain times. -/
structure Job where
  id : String
  name : String
  schedule : String
  desiredSize : Int
  runOnce : Bool
  excludeDates : List String
  owner : OwnerKey
  target : TargetRef
  deriving DecidableEq, Repr, Inhabited

namespace Job

def targetOf (r : Resource) : Except Fault TargetRef :=
  TargetRef.complete r.spec.target.name r.key.ns r.spec.target.kind r.spec.target.apiVersion

/-- Builds a job that a resource declares, or says what stands against it. -/
def build (r : Resource) (spec : JobSpec) (id : String) : Except Fault Job :=
  match targetOf r with
  | .error e => .error e
  | .ok target =>
    match Schedule.parse spec.schedule with
    | .error e => .error (.unreadable e)
    | .ok _ =>
      if spec.targetSize < 0 then .error (.negativeSize spec.name spec.targetSize)
      else
        .ok
          { id := id, name := spec.name, schedule := spec.schedule, desiredSize := spec.targetSize
            runOnce := spec.isRunOnce, excludeDates := r.spec.excludeDates, owner := r.key
            target := target }

/-- Whether two jobs have the same id, schedule and target. -/
def agrees (a b : Job) : Bool :=
  a.id == b.id && a.schedule == b.schedule && a.target.identity == b.target.identity

/-- Whether putting `b` in the place of `a` changes anything that is run. -/
def differsFrom (a b : Job) : Bool :=
  !a.agrees b || a.desiredSize != b.desiredSize || a.runOnce != b.runOnce ||
    a.excludeDates != b.excludeDates

def inspect (j : Job) : String :=
  "ScalingJob \x7b id: " ++ quoted j.id ++ ", name: " ++ quoted j.name ++ ", schedule: " ++
    quoted j.schedule ++ ", desired_size: " ++ toString j.desiredSize ++ ", run_once: " ++
    (if j.runOnce then "true" else "false") ++ ", owner: OwnerKey \x7b namespace: " ++
    quoted j.owner.ns ++ ", name: " ++ quoted j.owner.name ++ " \x7d, target: " ++
    j.target.inspect ++ " \x7d"

end Job

end CronScale
