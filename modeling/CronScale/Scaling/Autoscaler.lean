import CronScale.Resource.Codec
import CronScale.Scaling.AutoscalerParts
/-!
# Autoscalers

An autoscaler keeps the size of a workload between two bounds; a lower bound that is absent counts
as one. Before a size is asked for, the bounds are moved as far as is needed to hold it, and the
lower bound follows it up when the workload is to grow.
-/

namespace CronScale

open CronScale.Calendar CronScale.Json

/-- The bounds of an autoscaler. -/
structure Bounds where
  low : Option Int
  high : Int
  deriving DecidableEq, Repr, Inhabited

namespace Bounds

/-- The lower bound that is in force. -/
def effectiveLow (b : Bounds) : Int := b.low.getD 1

/-- The lower bound that is wanted for a workload of size `current` which is to get the size
`desired`: three rules, each of which overrides those before it. -/
def neededLow (b : Bounds) (current desired : Int) : Int :=
  let low := b.effectiveLow
  let wanted := if desired < low then desired else low
  let wanted := if current = low ∧ desired < current then desired else wanted
  if current < desired then desired else wanted

/-- The bounds, widened as far as `desired` needs. -/
def widen (b : Bounds) (current desired : Int) : Bounds where
  low := if b.neededLow current desired = b.effectiveLow then b.low
    else some (b.neededLow current desired)
  high := max b.high desired

/-- Whether the bounds have to be moved for `desired`. -/
def mustMove (b : Bounds) (current desired : Int) : Bool :=
  b.high < desired || b.neededLow current desired != b.effectiveLow

end Bounds

/-- The workload of an autoscaler. -/
structure WorkloadRef where
  apiVersion : Option String
  kind : String
  name : String
  deriving DecidableEq, Repr, Inhabited

/-- What an autoscaler is asked to do. -/
structure AutoscalerSpec where
  bounds : Bounds
  workload : WorkloadRef
  behavior : Option Json := none
  metrics : Option (List Json) := none
  deriving Inhabited

/-- What an autoscaler says about its workload. -/
structure AutoscalerStatus where
  current : Option Int
  desired : Int := 0
  conditions : Option (List Json) := none
  currentMetrics : Option (List Json) := none
  lastScaleTime : Option Instant := none
  observedGeneration : Option Int := none
  deriving Inhabited

/-- An autoscaler. -/
structure Autoscaler where
  metadata : Metadata
  spec : Option AutoscalerSpec
  status : Option AutoscalerStatus
  deriving Inhabited

namespace WorkloadRef

def ofJson? (j : Json) : Option WorkloadRef := do
  let m ← namedMembers j
  let apiVersion ← m.optional "apiVersion" asText
  let kind ← m.settled "kind" "" asText
  let name ← m.settled "name" "" asText
  pure ⟨apiVersion, kind, name⟩

def toJson (w : WorkloadRef) : Json :=
  ofMembers (present [("apiVersion", w.apiVersion.map .text)] ++
    [("kind", .text w.kind), ("name", .text w.name)])

end WorkloadRef

namespace AutoscalerSpec

def ofJson? (j : Json) : Option AutoscalerSpec := do
  let m ← namedMembers j
  let low ← m.optional "minReplicas" asInt32
  let high ← m.settled "maxReplicas" 0 asInt32
  let workload ← m.settled "scaleTargetRef" ⟨none, "", ""⟩ WorkloadRef.ofJson?
  let behavior ← m.optional "behavior" AutoscalerParts.behavior.read?
  let metrics ← m.optional "metrics" (asList AutoscalerParts.wantedMeasure.read?)
  pure ⟨⟨low, high⟩, workload, behavior, metrics⟩

def toJson (s : AutoscalerSpec) : Json :=
  ofMembers (present [("behavior", s.behavior), ("metrics", s.metrics.map .list),
      ("minReplicas", s.bounds.low.map .whole)] ++
    [("maxReplicas", .whole s.bounds.high), ("scaleTargetRef", s.workload.toJson)])

end AutoscalerSpec

namespace AutoscalerStatus

/-- Reads what an autoscaler says about its workload. -/
def ofJson? (j : Json) : Option AutoscalerStatus := do
  let m ← namedMembers j
  let current ← m.optional "currentReplicas" asInt32
  let desired ← m.settled "desiredReplicas" 0 asInt32
  let conditions ← m.optional "conditions" (asList AutoscalerParts.condition.read?)
  let currentMetrics ← m.optional "currentMetrics" (asList AutoscalerParts.foundMeasure.read?)
  let lastScaleTime ← m.optional "lastScaleTime" asTimestamp
  let observedGeneration ← m.optional "observedGeneration" asInt64
  pure ⟨current, desired, conditions, currentMetrics, lastScaleTime, observedGeneration⟩

/-- Writes what an autoscaler says about its workload. -/
def toJson (s : AutoscalerStatus) : Json :=
  ofMembers (present [("conditions", s.conditions.map .list),
      ("currentMetrics", s.currentMetrics.map .list),
      ("currentReplicas", s.current.map .whole),
      ("lastScaleTime", s.lastScaleTime.map fun t => .text t.secondText),
      ("observedGeneration", s.observedGeneration.map .whole)] ++
    [("desiredReplicas", .whole s.desired)])

end AutoscalerStatus

namespace Autoscaler

def apiVersion : String := "autoscaling/v2"

def kind : String := "HorizontalPodAutoscaler"

/-- Reads an autoscaler, whose version and kind have to be right if they are given. -/
def ofJson? (j : Json) : Option Autoscaler := do
  let m ← namedMembers j
  m.isOfKind apiVersion kind
  let metadata ← m.settled "metadata" default Metadata.ofJson?
  let spec ← m.optional "spec" AutoscalerSpec.ofJson?
  let status ← m.optional "status" AutoscalerStatus.ofJson?
  pure ⟨metadata, spec, status⟩

def toJson (a : Autoscaler) : Json :=
  ofMembers ([("apiVersion", .text apiVersion), ("kind", .text kind),
    ("metadata", a.metadata.toJson)] ++
    present [("spec", a.spec.map AutoscalerSpec.toJson),
      ("status", a.status.map AutoscalerStatus.toJson)])

/-- The size that the workload is said to have; zero if nothing is said. -/
def currentSize (a : Autoscaler) : Int := (a.status.bind (·.current)).getD 0

end Autoscaler

end CronScale
