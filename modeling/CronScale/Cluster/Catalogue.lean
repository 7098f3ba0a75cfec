import CronScale.Cluster.Api
import CronScale.Resource.Codec
/-!
# The catalogue of the cluster

The objects of one type lie under one path in each namespace. For the types that the operator knows
the path is fixed; for any other kind the cluster is asked for the catalogue of its group, in which
the first entry of the kind counts that is not a part of another entry's objects.
-/

namespace CronScale.Cluster

open CronScale.Json CronScale.Text

/-- A type of objects. -/
structure ObjectType where
  group : String
  /-- The group and version in paths. -/
  apiVersion : String
  /-- The name in paths. -/
  plural : String
  deriving DecidableEq, Repr, Inhabited

namespace ObjectType

/-- The path to all objects of a type in a namespace. -/
def collection (t : ObjectType) (ns : String) : String :=
  (if t.group == "" then "/api/" else "/apis/") ++ t.apiVersion ++ "/namespaces/" ++ ns ++ "/" ++
    t.plural

def objectPath (t : ObjectType) (ns name part : String) : String :=
  t.collection ns ++ "/" ++ name ++ part

/-- The request that fetches an object or a part of it. -/
def getObject (t : ObjectType) (ns name part : String) : Except RequestFault Request :=
  Request.get? (t.objectPath ns name part)

/-- The request that writes an object or a part of it. -/
def writeObject (t : ObjectType) (method : Method) (ns name part : String) (body : Json) :
    Except RequestFault Request :=
  Request.write? method (t.objectPath ns name part) body

def resources : ObjectType := ⟨Resource.group, Resource.apiVersion, Resource.plural⟩

def autoscalers : ObjectType := ⟨"autoscaling", "autoscaling/v2", "horizontalpodautoscalers"⟩

def events : ObjectType := ⟨"events.k8s.io", "events.k8s.io/v1", "events"⟩

end ObjectType

/-- An entry of a catalogue. -/
structure CatalogueEntry where
  group : Option String
  kind : String
  name : String
  deriving DecidableEq, Repr, Inhabited

/-- A catalogue. -/
structure Catalogue where
  groupVersion : String
  entries : List CatalogueEntry
  deriving DecidableEq, Repr, Inhabited

namespace Catalogue

def entryOfJson? (j : Json) : Option CatalogueEntry := do
  let m ← namedMembers j
  let _ ← m.optional "categories" (asList asText)
  let group ← m.optional "group" asText
  let kind ← m.settled "kind" "" asText
  let name ← m.settled "name" "" asText
  let _ ← m.settled "namespaced" false asBool
  let _ ← m.optional "shortNames" (asList asText)
  let _ ← m.settled "singularName" "" asText
  let _ ← m.optional "storageVersionHash" asText
  let _ ← m.settled "verbs" [] (asList asText)
  let _ ← m.optional "version" asText
  pure ⟨group, kind, name⟩

def ofJson? (j : Json) : Option Catalogue := do
  let m ← namedMembers j
  m.isOfKind "v1" "APIResourceList"
  let groupVersion ← m.settled "groupVersion" "" asText
  let entries ← m.settled "resources" [] (asList entryOfJson?)
  pure ⟨groupVersion, entries⟩

/-- Whether an entry is for the objects of a kind and not for a part of them. -/
def isEntryOf (kind : String) (e : CatalogueEntry) : Bool :=
  e.kind == kind && !e.name.toList.contains '/'

def typeOf (c : Catalogue) (e : CatalogueEntry) : ObjectType :=
  let (group, version) := (cutString '/' c.groupVersion).getD ("", c.groupVersion)
  let apiVersion := if group == "" then version else group ++ "/" ++ version
  ⟨e.group.getD group, apiVersion, e.name⟩

def find? (c : Catalogue) (kind : String) : Option ObjectType :=
  (c.entries.find? (isEntryOf kind)).map c.typeOf

/-- The path to the catalogue of a group and version. -/
def path (group version : String) : String :=
  if group == "" then "/api/" ++ version else "/apis/" ++ group ++ "/" ++ version

/-- The request for the catalogue of a group and version. -/
def request (group version : String) : Except RequestFault Request :=
  match readPath? (path group version) with
  | some p => .ok ⟨.get, p, none⟩
  | none => .error .badCataloguePath

/-- Asks the cluster for the type of the objects of a kind. -/
def lookUp (group version kind : String) : Procedure Api (Except ApiFailure ObjectType) := do
  match ← obtain ofJson? (request group version) with
  | .error e => pure (.error e)
  | .ok c =>
    match c.find? kind with
    | some t => pure (.ok t)
    | none => pure (.error (.unknownKind group version kind))

end Catalogue

end CronScale.Cluster
