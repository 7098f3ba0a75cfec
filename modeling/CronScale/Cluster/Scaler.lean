import CronScale.Cluster.Catalogue
import CronScale.Scaling.Attempt
import CronScale.Table
/-!
# Scaling in the cluster

The size of a target is a part of its own, under the path of the target. Which path that is has to
be looked up by the kind of the target. What was found is kept, and forgotten when the request for
the size fails, since the kind may have moved.
-/

namespace CronScale.Cluster

open CronScale.Json

/-- The types that were looked up. -/
abbrev KnownTypes := Table String ObjectType

namespace KnownTypes

/-- The group, version and kind of a target in one text. -/
def keyOf (t : TargetRef) : String := t.group ++ "/" ++ t.version ++ "/" ++ t.kind

/-- The type of a target, looked up unless it is known. -/
def typeOf (known : KnownTypes) (t : TargetRef) :
    Procedure Api (Except Fault (ObjectType × KnownTypes)) :=
  match known.get? (keyOf t) with
  | some type => pure (.ok (type, known))
  | none => do
    match ← Catalogue.lookUp t.group t.version t.kind with
    | .ok type => pure (.ok (type, known.insert (keyOf t) type))
    | .error e => pure (.error (.api e))

/-- Goes on with the type of a target, which is forgotten if that fails. -/
def withType {α : Type} (known : KnownTypes) (t : TargetRef)
    (act : ObjectType → Procedure Api (Except ApiFailure α)) :
    Procedure Api (Except Fault α × KnownTypes) := do
  match ← known.typeOf t with
  | .error e => pure (.error e, known)
  | .ok (type, known) =>
    match ← act type with
    | .ok a => pure (.ok a, known)
    | .error e => pure (.error (.api e), known.erase (keyOf t))

end KnownTypes

/-- Reads the wanted size of an object whose size is a part of its own; zero if it is not given. -/
def sizeOfJson? (j : Json) : Option Int := do
  let m ← namedMembers j
  m.isOfKind "autoscaling/v1" "Scale"
  let _ ← m.optional "metadata" Metadata.ofJson?
  let spec ← m.optional "spec" fun j => do (← namedMembers j).optional "replicas" asInt32
  let _ ← m.optional "status" fun j => do
    let m ← namedMembers j
    let _ ← m.optional "selector" asText
    m.settled "replicas" 0 asInt32
  pure (spec.join.getD 0)

def sizePatch (size : Int) : Json :=
  ofMembers [("spec", ofMembers [("replicas", .whole size)])]

def getScale (known : KnownTypes) (t : TargetRef) :
    Procedure Api (Except Fault Int × KnownTypes) :=
  known.withType t fun type => obtain sizeOfJson? (type.getObject t.ns t.name "/scale")

def updateScale (known : KnownTypes) (t : TargetRef) (size : Int) :
    Procedure Api (Except Fault Unit × KnownTypes) :=
  known.withType t fun type => do
    let r := type.writeObject .patch t.ns t.name "/scale" (sizePatch size)
    match ← obtain sizeOfJson? r with
    | .ok _ => pure (.ok ())
    | .error e => pure (.error e)

def getAutoscaler (ns name : String) : Procedure Api (Except Fault Autoscaler) := do
  let a ← obtain Autoscaler.ofJson? (ObjectType.autoscalers.getObject ns name "")
  pure (a.mapError .api)

/-- Writes an autoscaler, which needs a name. -/
def updateAutoscaler (a : Autoscaler) : Procedure Api (Except Fault Unit) :=
  match a.metadata.name with
  | none => pure (.error .namelessAutoscaler)
  | some name => do
    let ns := a.metadata.ns.getD "default"
    let r := ObjectType.autoscalers.writeObject .put ns name "" a.toJson
    match ← obtain Autoscaler.ofJson? r with
    | .ok _ => pure (.ok ())
    | .error e => pure (.error (.api e))

/-- The cluster as attempts see it, reached by requests; the types known afterwards come with each
answer. -/
def scaler (known : KnownTypes) : (c : ScalerCall) → Procedure Api (c.Reply × KnownTypes)
  | .getScale t => getScale known t
  | .updateScale t size => updateScale known t size
  | .getAutoscaler ns name => do pure (← getAutoscaler ns name, known)
  | .updateAutoscaler a => do pure (← updateAutoscaler a, known)

end CronScale.Cluster
