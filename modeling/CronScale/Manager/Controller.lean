import CronScale.Manager.Reconcile
import CronScale.Manager.Sweep
/-!
# Following the resources

The controller watches the resources in two ways. One watch hands over every resource that is
there or was written, to be reconciled; a reconcile that fails is repeated after half a minute. The
other one looks out for deletions, upon which a resource is forgotten; since deletions may go
unseen where the watch begins anew, lost jobs are collected then.
-/

namespace CronScale

/-- What a watch tells of the resources. -/
inductive WatchEvent where
  | applied (key : OwnerKey)
  | deleted (key : OwnerKey)
  | restarted (keys : List OwnerKey)
  deriving DecidableEq, Repr

/-- What the watch for deletions does upon an event. -/
def watchDeletions : WatchEvent → Procedure Desk Unit
  | .applied _ => pure ()
  | .deleted key => do
    let _ ← Desk.forget key
    pure ()
  | .restarted _ => do
    let _ ← sweep
    pure ()

/-- The resources that are to be reconciled upon an event. -/
def WatchEvent.touched : WatchEvent → List OwnerKey
  | .applied key => [key]
  | .deleted _ => []
  | .restarted keys => keys

/-- The milliseconds after which a reconcile that failed is repeated. -/
def retryReconcile : Int := 30000

end CronScale
