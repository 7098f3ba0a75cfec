import CronScale.Cluster.Catalogue
import CronScale.Manager.Store
/-!
# Resources in the cluster

The home of the resources is the cluster itself. A status is written as a merge patch of the part
of a resource that is its status; the version it is written against goes into the patch. An event
is written where the resource is, and nothing comes of an event that cannot be written.
-/

namespace CronScale.Cluster

open CronScale.Calendar CronScale.Json

/-- Who reports events. -/
structure Reporter where
  name : String
  /-- Which one of several reporters of this name it is. -/
  instanceName : Option String
  deriving DecidableEq, Repr, Inhabited

/-- The namespace of events about what has none. -/
def eventNamespace : String := "kube-system"

/-- Asks for a copy of a resource; one that is refused as not found is absent. -/
def fetch (key : OwnerKey) : Procedure Api (Except Fault (Option Resource)) := do
  let r := ObjectType.resources.getObject key.ns key.name ""
  match ← obtain Resource.ofJson? r with
  | .ok r => pure (.ok (some r))
  | .error e =>
    match e with
    | .refused r => pure (if r.reason = "NotFound" then .ok none else .error (.api e))
    | e => pure (.error (.api e))

/-- The patch that replaces a status, against a version or against none. -/
def statusPatch (status : Status) (version : Option String) : Json :=
  ofMembers (("status", status.toJson) ::
    present [("metadata", version.map fun v => ofMembers [("resourceVersion", .text v)])])

/-- The fault of a failed write of a status. -/
def patchFault (key : OwnerKey) (e : ApiFailure) : Fault :=
  if e.isNotFound then .missing key.text
  else if e.isConflict then .outdated key.text
  else .api e

def patchStatus (key : OwnerKey) (status : Status) (version : Option String) :
    Procedure Api (Except Fault Unit) := do
  let body := statusPatch status version
  let r := ObjectType.resources.writeObject .patch key.ns key.name "/status" body
  match ← obtain Resource.ofJson? r with
  | .ok _ => pure (.ok ())
  | .error e => pure (.error (patchFault key e))

def eventJson (reporter : Reporter) (now : Instant) (r : Resource) (e : Event) : Json :=
  let regarding := ofMembers (("apiVersion", .text Resource.apiVersion) ::
    ("kind", .text Resource.kind) ::
    present [("name", r.metadata.name.map .text), ("namespace", r.metadata.ns.map .text),
      ("uid", r.metadata.uid.map .text)])
  ofMembers
    [("apiVersion", .text ObjectType.events.apiVersion), ("kind", .text "Event"),
      ("metadata", ofMembers (("generateName", .text (reporter.name ++ "-")) ::
        present [("namespace", r.metadata.ns.map .text)])),
      ("action", .text "Scale"), ("eventTime", .text now.microText), ("note", .text e.message),
      ("reason", .text e.reason), ("regarding", regarding),
      ("reportingController", .text reporter.name),
      ("reportingInstance", .text (reporter.instanceName.getD reporter.name)),
      ("type", .text e.kind.name)]

def publish (reporter : Reporter) (now : Instant) (r : Resource) (e : Event) :
    Procedure Api Unit := do
  let path := ObjectType.events.collection (r.metadata.ns.getD eventNamespace)
  let _ ← exchange (Request.write? .post path (eventJson reporter now r e))
  pure ()

/-- The home of the resources, reached by requests. -/
def home (reporter : Reporter) (now : Instant) : (c : StoreCall) → Procedure Api c.Reply
  | .fetch key => fetch key
  | .patchStatus key status version => patchStatus key status version
  | .publish r e => publish reporter now r e

end CronScale.Cluster
