import CronScale.Json.Decode
import CronScale.Resource.Basic
/-!
# Resources as JSON

Reading is strict about types and lenient about members that are not known, which are passed over.
Writing leaves out what is optional and absent, and otherwise writes every member, the defaults
included; the version and the kind are written always and ignored when read.
-/

namespace CronScale

open CronScale.Calendar CronScale.Json

namespace TargetSpec

def ofJson? (j : Json) : Option TargetSpec := do
  let m ← members ["apiVersion", "kind", "name"] j
  let apiVersion ← m.required "apiVersion" asText
  let kind ← m.required "kind" asText
  let name ← m.required "name" asText
  pure ⟨apiVersion, kind, name⟩

def toJson (t : TargetSpec) : Json :=
  ofMembers [("apiVersion", .text t.apiVersion), ("kind", .text t.kind), ("name", .text t.name)]

end TargetSpec

namespace JobSpec

def ofJson? (j : Json) : Option JobSpec := do
  let m ← members ["name", "schedule", "runOnce", "targetSize"] j
  let name ← m.required "name" asText
  let schedule ← m.required "schedule" asText
  let runOnce ← m.defaulted "runOnce" false asBool
  let targetSize ← m.required "targetSize" asInt32
  pure ⟨name, schedule, runOnce, targetSize⟩

def toJson (j : JobSpec) : Json :=
  ofMembers [("name", .text j.name), ("schedule", .text j.schedule), ("runOnce", .bool j.runOnce),
    ("targetSize", .whole j.targetSize)]

end JobSpec

namespace Spec

def ofJson? (j : Json) : Option Spec := do
  let m ← members ["excludeDates", "scaleTargetRef", "jobs"] j
  let excludeDates ← m.defaulted "excludeDates" [] (asList asText)
  let target ← m.required "scaleTargetRef" TargetSpec.ofJson?
  let jobs ← m.defaulted "jobs" [] (asList JobSpec.ofJson?)
  pure ⟨excludeDates, target, jobs⟩

def toJson (s : Spec) : Json :=
  ofMembers [("excludeDates", texts s.excludeDates), ("scaleTargetRef", s.target.toJson),
    ("jobs", .list (s.jobs.map JobSpec.toJson))]

end Spec

namespace JobState

def ofName? : String → Option JobState
  | "Submitted" => some .submitted
  | "Succeed" => some .succeed
  | "Failed" => some .failed
  | _ => none

/-- Reads a state: its name, or a record with its name and null. -/
def ofJson? : Json → Option JobState
  | .text s => ofName? s
  | .record [(s, .null)] => ofName? s
  | _ => none

end JobState

namespace Condition

def ofJson? (j : Json) : Option Condition := do
  let m ← members ["name", "jobId", "schedule", "targetSize", "runOnce", "state", "lastProbeTime",
    "message"] j
  let name ← m.required "name" asText
  let jobId ← m.required "jobId" asText
  let schedule ← m.required "schedule" asText
  let targetSize ← m.required "targetSize" asInt32
  let runOnce ← m.defaulted "runOnce" false asBool
  let state ← m.required "state" JobState.ofJson?
  let lastProbeTime ← m.required "lastProbeTime" asText
  let message ← m.defaulted "message" "" asText
  pure ⟨name, jobId, schedule, targetSize, runOnce, state, lastProbeTime, message⟩

def toJson (c : Condition) : Json :=
  ofMembers [("name", .text c.name), ("jobId", .text c.jobId), ("schedule", .text c.schedule),
    ("targetSize", .whole c.targetSize), ("runOnce", .bool c.runOnce),
    ("state", .text c.state.name), ("lastProbeTime", .text c.lastProbeTime),
    ("message", .text c.message)]

end Condition

namespace Status

def ofJson? (j : Json) : Option Status := do
  let m ← members ["scaleTargetRef", "excludeDates", "conditions"] j
  let target ← m.optional "scaleTargetRef" TargetSpec.ofJson?
  let excludeDates ← m.defaulted "excludeDates" [] (asList asText)
  let conditions ← m.defaulted "conditions" [] (asList Condition.ofJson?)
  pure ⟨target, excludeDates, conditions⟩

def toJson (s : Status) : Json :=
  ofMembers (present [("scaleTargetRef", s.target.map TargetSpec.toJson)] ++
    [("excludeDates", texts s.excludeDates),
      ("conditions", .list (s.conditions.map Condition.toJson))])

end Status

/-- The most levels that the fields of a writer may have, which lie four levels deep in an
object. -/
def maxFieldLevels : Nat := maxLevels - 4

namespace OwnerReference

def ofJson? (j : Json) : Option OwnerReference := do
  let m ← namedMembers j
  let apiVersion ← m.settled "apiVersion" "" asText
  let block ← m.optional "blockOwnerDeletion" asBool
  let controller ← m.optional "controller" asBool
  let kind ← m.settled "kind" "" asText
  let name ← m.settled "name" "" asText
  let uid ← m.settled "uid" "" asText
  pure ⟨apiVersion, block, controller, kind, name, uid⟩

def toJson (o : OwnerReference) : Json :=
  ofMembers (present [("blockOwnerDeletion", o.blockOwnerDeletion.map .bool),
      ("controller", o.controller.map .bool)] ++
    [("apiVersion", .text o.apiVersion), ("kind", .text o.kind), ("name", .text o.name),
      ("uid", .text o.uid)])

end OwnerReference

namespace ManagedFields

def ofJson? (j : Json) : Option ManagedFields := do
  let m ← namedMembers j
  let apiVersion ← m.optional "apiVersion" asText
  let fieldsType ← m.optional "fieldsType" asText
  let fieldsV1 ← m.optional "fieldsV1" (canonical? maxFieldLevels)
  let manager ← m.optional "manager" asText
  let operation ← m.optional "operation" asText
  let subresource ← m.optional "subresource" asText
  let time ← m.optional "time" asTimestamp
  pure ⟨apiVersion, fieldsType, fieldsV1, manager, operation, subresource, time⟩

def toJson (f : ManagedFields) : Json :=
  ofMembers (present [("apiVersion", f.apiVersion.map .text),
    ("fieldsType", f.fieldsType.map .text), ("fieldsV1", f.fieldsV1),
    ("manager", f.manager.map .text), ("operation", f.operation.map .text),
    ("subresource", f.subresource.map .text), ("time", f.time.map fun t => .text t.secondText)])

end ManagedFields

namespace Metadata

def ofJson? (j : Json) : Option Metadata := do
  let m ← namedMembers j
  let name ← m.optional "name" asText
  let ns ← m.optional "namespace" asText
  let generateName ← m.optional "generateName" asText
  let resourceVersion ← m.optional "resourceVersion" asText
  let uid ← m.optional "uid" asText
  let selfLink ← m.optional "selfLink" asText
  let generation ← m.optional "generation" asInt64
  let labels ← m.optional "labels" (asTable asText)
  let annotations ← m.optional "annotations" (asTable asText)
  let finalizers ← m.optional "finalizers" (asList asText)
  let creationTimestamp ← m.optional "creationTimestamp" asTimestamp
  let deletionTimestamp ← m.optional "deletionTimestamp" asTimestamp
  let deletionGracePeriodSeconds ← m.optional "deletionGracePeriodSeconds" asInt64
  let ownerReferences ← m.optional "ownerReferences" (asList OwnerReference.ofJson?)
  let managedFields ← m.optional "managedFields" (asList ManagedFields.ofJson?)
  pure ⟨name, ns, generateName, resourceVersion, uid, selfLink, generation, labels, annotations,
    finalizers, creationTimestamp, deletionTimestamp, deletionGracePeriodSeconds, ownerReferences,
    managedFields⟩

def tableJson (rows : List (String × String)) : Json :=
  ofMembers (rows.map fun r => (r.1, .text r.2))

def toJson (m : Metadata) : Json :=
  ofMembers (present [("name", m.name.map .text), ("namespace", m.ns.map .text),
    ("generateName", m.generateName.map .text), ("resourceVersion", m.resourceVersion.map .text),
    ("uid", m.uid.map .text), ("selfLink", m.selfLink.map .text),
    ("generation", m.generation.map .whole), ("labels", m.labels.map tableJson),
    ("annotations", m.annotations.map tableJson), ("finalizers", m.finalizers.map texts),
    ("creationTimestamp", m.creationTimestamp.map fun t => .text t.secondText),
    ("deletionTimestamp", m.deletionTimestamp.map fun t => .text t.secondText),
    ("deletionGracePeriodSeconds", m.deletionGracePeriodSeconds.map .whole),
    ("ownerReferences", m.ownerReferences.map fun os => .list (os.map OwnerReference.toJson)),
    ("managedFields", m.managedFields.map fun fs => .list (fs.map ManagedFields.toJson))])

end Metadata

namespace Resource

def ofJson? (j : Json) : Option Resource := do
  let m ← members ["metadata", "spec", "status"] j
  let metadata ← m.required "metadata" Metadata.ofJson?
  let spec ← m.required "spec" Spec.ofJson?
  let status ← m.optional "status" Status.ofJson?
  pure ⟨metadata, spec, status⟩

def toJson (r : Resource) : Json :=
  ofMembers ([("apiVersion", .text apiVersion), ("kind", .text kind),
    ("metadata", r.metadata.toJson), ("spec", r.spec.toJson)] ++
    present [("status", r.status.map Status.toJson)])

end Resource

end CronScale
