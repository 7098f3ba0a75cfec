import CronScale.Fault
import CronScale.Procedure
import CronScale.Resource.Basic
/-!
# The home of the resources

Resources are kept elsewhere. What can be asked of their home is a copy of a resource, to have its
status replaced and to make an event known. A status may be written against a version: then the
write is refused if the resource was written since. An event is made known at best effort.
-/

namespace CronScale

/-- Whether an event is good news. -/
inductive EventKind where
  | normal
  | warning
  deriving DecidableEq, Repr

def EventKind.name : EventKind → String
  | normal => "Normal"
  | warning => "Warning"

/-- News about a resource. -/
structure Event where
  kind : EventKind
  reason : String
  message : String
  deriving DecidableEq, Repr

/-- What can be asked of the home of the resources. -/
inductive StoreCall where
  | fetch (key : OwnerKey)
  | patchStatus (key : OwnerKey) (status : Status) (version : Option String)
  | publish (resource : Resource) (event : Event)

def StoreCall.Reply : StoreCall → Type
  | fetch _ => Except Fault (Option Resource)
  | patchStatus _ _ _ => Except Fault Unit
  | publish _ _ => Unit

abbrev Store : Interface := ⟨StoreCall, StoreCall.Reply⟩

end CronScale
