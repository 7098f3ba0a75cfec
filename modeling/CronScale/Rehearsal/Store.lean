import CronScale.Manager.Store
import CronScale.Table
/-!
# A home of resources in memory

In a rehearsal the resources are kept in memory. Every write of a resource gives it the next version
of its key, also after it has been deleted and comes again. Writing a resource keeps the status
that is stored. Calls can be made to fail, and another writer can be made to come in right after a
copy was handed out.
-/

namespace CronScale.Rehearsal

/-- What another writer does right after a copy of a resource was handed out. -/
inductive Race where
  | write (status : Status)
  | delete

/-- News with the time and the key of its resource. -/
structure PublishedEvent where
  time : Int
  key : OwnerKey
  event : Event
  deriving DecidableEq, Repr

/-- Resources in memory. -/
structure MemoryStore where
  resources : Table OwnerKey Resource := Table.empty
  versions : Table OwnerKey Nat := Table.empty
  /-- The number of statuses written by patches. -/
  patches : Nat := 0
  patchFaults : List Fault := []
  fetchFaults : Table OwnerKey (List Fault) := Table.empty
  race : Option Race := none
  events : List PublishedEvent := []

instance : Inhabited MemoryStore := ⟨{}⟩

namespace MemoryStore

/-- Stores a resource under the next version of its key. -/
def write (s : MemoryStore) (key : OwnerKey) (r : Resource) : MemoryStore :=
  let v := (s.versions.get? key).getD 0 + 1
  { s with
    versions := s.versions.insert key v
    resources := s.resources.insert key
      { r with metadata := { r.metadata with resourceVersion := some (toString v) } } }

/-- Stores a resource, with the status that is stored already. -/
def put (s : MemoryStore) (r : Resource) : MemoryStore :=
  s.write r.key { r with status := (s.resources.get? r.key).bind (·.status) }

def delete (s : MemoryStore) (key : OwnerKey) : MemoryStore :=
  { s with resources := s.resources.erase key }

def writeStatus (s : MemoryStore) (key : OwnerKey) (status : Option Status) : MemoryStore :=
  match s.resources.get? key with
  | none => s
  | some r => s.write key { r with status := status }

/-- Lets the other writer come in. -/
def runRace (s : MemoryStore) (key : OwnerKey) : MemoryStore :=
  match s.race with
  | none => s
  | some (.write status) => { s with race := none }.writeStatus key (some status)
  | some .delete => { s with race := none }.delete key

def fetch (s : MemoryStore) (key : OwnerKey) : Except Fault (Option Resource) × MemoryStore :=
  match (s.fetchFaults.get? key).getD [] with
  | e :: es => (.error e, { s with fetchFaults := s.fetchFaults.insert key es })
  | [] => (.ok (s.resources.get? key), s.runRace key)

/-- Writes a status, against a version or against none. -/
def patch (s : MemoryStore) (key : OwnerKey) (status : Status) (version : Option String) :
    Except Fault Unit × MemoryStore :=
  match s.patchFaults with
  | e :: es => (.error e, { s with patchFaults := es })
  | [] =>
    match s.resources.get? key with
    | none => (.error (.missing key.text), s)
    | some r =>
      if version.isSome && version != r.metadata.resourceVersion then
        (.error (.outdated key.text), s)
      else (.ok (), { s.writeStatus key (some status) with patches := s.patches + 1 })

def answer (now : Int) : (c : StoreCall) → MemoryStore → c.Reply × MemoryStore
  | .fetch key, s => s.fetch key
  | .patchStatus key status version, s => s.patch key status version
  | .publish r event, s => ((), { s with events := s.events ++ [⟨now, r.key, event⟩] })

end MemoryStore

end CronScale.Rehearsal
