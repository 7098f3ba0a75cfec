import CronScale.Fault
/-!
# Scalable objects

A target names a scalable object with its kind, and the group and version of the kind. The group may
be empty, as it is for the oldest kinds; a reference that a resource makes has to be complete, in
every part.
-/

namespace CronScale

open CronScale.Text

/-- A reference to a scalable object. -/
structure TargetRef where
  name : String
  ns : String
  kind : String
  group : String
  version : String
  deriving DecidableEq, Repr, Inhabited

namespace TargetRef

/-- The group and the version in an API version; without a slash all of it is the version. -/
def splitApiVersion (apiVersion : String) : String × String :=
  (cutString '/' apiVersion).getD ("", apiVersion)

/-- A reference with parts that may be empty. -/
def ofApiVersion (name ns kind apiVersion : String) : TargetRef :=
  let (group, version) := splitApiVersion apiVersion
  ⟨name, ns, kind, group, version⟩

/-- Whether every part of a reference has something in it besides blanks. -/
def isComplete (t : TargetRef) : Bool :=
  !(blank t.name || blank t.ns || blank t.kind || blank t.group || blank t.version)

/-- A reference all of whose parts have to be there. -/
def complete (name ns kind apiVersion : String) : Except Fault TargetRef :=
  let t := ofApiVersion name ns kind apiVersion
  if t.isComplete then .ok t else .error (.incompleteReference name ns kind apiVersion)

/-- Whether the object is an autoscaler and not a workload. -/
def isAutoscaler (t : TargetRef) : Bool := t.kind == "HorizontalPodAutoscaler"

/-- The parts of a reference in one text, by which jobs are compared. -/
def identity (t : TargetRef) : String :=
  t.name ++ ":" ++ t.ns ++ ":" ++ t.kind ++ ":" ++ t.group ++ ":" ++ t.version

def text (t : TargetRef) : String := t.kind ++ " " ++ t.ns ++ "/" ++ t.name

def inspect (t : TargetRef) : String :=
  "TargetRef \x7b name: " ++ quoted t.name ++ ", namespace: " ++ quoted t.ns ++ ", kind: " ++
    quoted t.kind ++ ", group: " ++ quoted t.group ++ ", version: " ++ quoted t.version ++ " \x7d"

end TargetRef

end CronScale
