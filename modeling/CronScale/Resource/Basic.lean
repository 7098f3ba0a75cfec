import CronScale.Json.Basic
import CronScale.Calendar.Instant
import CronScale.Schedule.Parse
/-!
# Resources

A resource declares, for one scalable object, the sizes it should have at certain times: its
specification. Its status is what the operator last wrote about it: the target and the excluded
days that were adopted, and a condition for every job. Whether a job runs once depends on the flag
in its declaration and on its schedule.
-/

namespace CronScale

open CronScale.Calendar

/-- The namespace and the name of a resource. -/
structure OwnerKey where
  ns : String
  name : String
  deriving DecidableEq, Repr, Inhabited

def OwnerKey.text (k : OwnerKey) : String := k.ns ++ "/" ++ k.name

/-- The key that a text up to the first slash and after it gives. -/
def OwnerKey.ofText (s : String) : OwnerKey :=
  match Text.cutString '/' s with
  | some (a, b) => ⟨a, b⟩
  | none => ⟨"", s⟩

/-- The object to be scaled, as a resource names it. -/
structure TargetSpec where
  apiVersion : String
  kind : String
  name : String
  deriving DecidableEq, Repr, Inhabited

/-- The declaration of a size at certain times. -/
structure JobSpec where
  name : String
  schedule : String
  runOnce : Bool
  targetSize : Int
  deriving DecidableEq, Repr, Inhabited

/-- Whether a job fires a single time: by its flag, or because its schedule names one date. -/
def JobSpec.isRunOnce (j : JobSpec) : Bool :=
  j.runOnce ||
    match Schedule.parse j.schedule with
    | .ok s => s.isOneShot
    | .error _ => false

/-- What a resource asks for. -/
structure Spec where
  excludeDates : List String
  target : TargetSpec
  jobs : List JobSpec
  deriving DecidableEq, Repr, Inhabited

/-- How a job stands. -/
inductive JobState where
  | submitted
  | succeed
  | failed
  deriving DecidableEq, Repr, Inhabited

def JobState.name : JobState → String
  | .submitted => "Submitted"
  | .succeed => "Succeed"
  | .failed => "Failed"

/-- Whether a state is the outcome of a run. -/
def JobState.isTerminal : JobState → Bool
  | .submitted => false
  | _ => true

/-- What the status says about one job. -/
structure Condition where
  name : String
  jobId : String
  schedule : String
  targetSize : Int
  runOnce : Bool
  state : JobState
  lastProbeTime : String
  message : String
  deriving DecidableEq, Repr, Inhabited

/-- What the operator last wrote about a resource. -/
structure Status where
  target : Option TargetSpec
  excludeDates : List String
  conditions : List Condition
  deriving DecidableEq, Repr, Inhabited

/-- The status of a resource that has none. -/
def Status.initial : Status := ⟨none, [], []⟩

/-- A resource that an object belongs to. -/
structure OwnerReference where
  apiVersion : String
  blockOwnerDeletion : Option Bool
  controller : Option Bool
  kind : String
  name : String
  uid : String

/-- Which fields a writer of an object has set. -/
structure ManagedFields where
  apiVersion : Option String
  fieldsType : Option String
  fieldsV1 : Option Json
  manager : Option String
  operation : Option String
  subresource : Option String
  time : Option Instant

/-- What every object of the cluster says about itself. -/
structure Metadata where
  name : Option String := none
  ns : Option String := none
  generateName : Option String := none
  resourceVersion : Option String := none
  uid : Option String := none
  selfLink : Option String := none
  generation : Option Int := none
  labels : Option (List (String × String)) := none
  annotations : Option (List (String × String)) := none
  finalizers : Option (List String) := none
  creationTimestamp : Option Instant := none
  deletionTimestamp : Option Instant := none
  deletionGracePeriodSeconds : Option Int := none
  ownerReferences : Option (List OwnerReference) := none
  managedFields : Option (List ManagedFields) := none
  deriving Inhabited

/-- The name, or what a name was to be generated from. -/
def Metadata.anyName (m : Metadata) : String := (m.name.or m.generateName).getD ""

/-- A resource with what it asks for and what was last written about it. -/
structure Resource where
  metadata : Metadata
  spec : Spec
  status : Option Status
  deriving Inhabited

namespace Resource

def group : String := "autoscaling.alibabacloud.com"

def version : String := "v1beta1"

def apiVersion : String := group ++ "/" ++ version

def kind : String := "CronHorizontalPodAutoscaler"

def plural : String := "cronhorizontalpodautoscalers"

def key (r : Resource) : OwnerKey := ⟨r.metadata.ns.getD "default", r.metadata.anyName⟩

end Resource

end CronScale
