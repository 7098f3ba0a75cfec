import CronScale.Schedule.Parse
import CronScale.Text.Quoted
/-!
# What can go wrong

A fault is a cause with the facts that belong to it; its wording is made in one place. Faults of the
cluster's interface carry what the interface answered, or say at which point of a request
something failed. A fault that comes from outside with a wording of its own is kept with that
wording.
-/

namespace CronScale

open CronScale.Text

/-- A refusal by the cluster's interface. -/
structure Refusal where
  status : String
  message : String
  reason : String
  code : Nat
  deriving DecidableEq, Repr, Inhabited

def Refusal.inspect (r : Refusal) : String :=
  "ErrorResponse \x7b status: " ++ quoted r.status ++ ", message: " ++ quoted r.message ++
    ", reason: " ++ quoted r.reason ++ ", code: " ++ toString r.code ++ " \x7d"

/-- Why a request cannot be made. -/
inductive RequestFault where
  | badPath
  | badCataloguePath
  deriving DecidableEq, Repr

/-- The wording of a request that cannot be made. -/
def RequestFault.message : RequestFault → String
  | badPath => "Failed to build request: failed to build request: invalid uri character"
  | badCataloguePath => "HttpError: invalid uri character"

/-- Why a request to the cluster's interface failed. -/
inductive ApiFailure where
  | refused (r : Refusal)
  | undelivered (cause : String)
  | unknownKind (group version kind : String)
  | undecodable
  | unbuildable (why : RequestFault)
  deriving DecidableEq, Repr

namespace ApiFailure

def message : ApiFailure → String
  | refused r => "ApiError: " ++ r.message ++ ": " ++ r.reason ++ " (" ++ r.inspect ++ ")"
  | undelivered cause => "ServiceError: " ++ cause
  | unknownKind g v k =>
    "Error from discovery: Missing Kind: GroupVersionKind \x7b group: " ++ quoted g ++
      ", version: " ++ quoted v ++ ", kind: " ++ quoted k ++ " \x7d"
  | undecodable => "Error deserializing response"
  | unbuildable why => why.message

/-- Whether the interface answered that there is no such object. -/
def isNotFound : ApiFailure → Bool
  | refused r => r.code == 404
  | _ => false

/-- Whether the interface refused a write against an outdated version. -/
def isConflict : ApiFailure → Bool
  | refused r => r.code == 409
  | _ => false

end ApiFailure

/-- The kinds of fault. -/
inductive FaultKind where
  | kubernetes
  | schedule
  | config
  | io
  | json
  | internal
  | validation
  | execution
  | notFound
  | conflict
  deriving DecidableEq, Repr

def FaultKind.title : FaultKind → String
  | kubernetes => "Kubernetes error"
  | schedule => "Schedule error"
  | config => "Configuration error"
  | io => "IO error"
  | json => "JSON error"
  | internal => "Internal error"
  | validation => "Validation error"
  | execution => "Execution error"
  | notFound => "Not found"
  | conflict => "Conflict"

/-- What went wrong. -/
inductive Fault where
  | api (f : ApiFailure)
  | unreadable (e : Schedule.ParseError)
  | unknownZone (name : String)
  | notPositive (setting : String)
  | badNumber (setting value : String) (cause : NumeralError)
  | incompleteReference (name ns kind apiVersion : String)
  | negativeSize (job : String) (size : Int)
  | noAutoscalerSpec (name : String)
  | namelessAutoscaler
  | gaveUp (kind name ns : String) (size : Int) (attempts : Nat) (last : Fault)
  | missing (what : String)
  | outdated (what : String)
  | reported (kind : FaultKind) (message : String)
  deriving DecidableEq, Repr

namespace Fault

def kind : Fault → FaultKind
  | api _ => .kubernetes
  | unreadable _ => .schedule
  | unknownZone _ => .config
  | notPositive _ => .config
  | badNumber _ _ _ => .config
  | incompleteReference _ _ _ _ => .validation
  | negativeSize _ _ => .validation
  | noAutoscalerSpec _ => .validation
  | namelessAutoscaler => .validation
  | gaveUp _ _ _ _ _ _ => .execution
  | missing _ => .notFound
  | outdated _ => .conflict
  | reported k _ => k

/-- The wording of a fault, with its kind in front. -/
def message (f : Fault) : String :=
  f.kind.title ++ ": " ++
    match f with
    | api f => f.message
    | unreadable e => e.message
    | unknownZone n => "unknown time zone " ++ n ++ ": '" ++ n ++ "' is not a valid timezone"
    | notPositive s => s ++ " must be positive"
    | badNumber s v e => "invalid " ++ s ++ " '" ++ v ++ "': " ++ e.message
    | incompleteReference name ns kind apiVersion =>
      "any properties in ref could not be empty, got name:" ++ name ++ " namespace:" ++ ns ++
        " kind:" ++ kind ++ " apiVersion:" ++ apiVersion
    | negativeSize job size =>
      "targetSize of job " ++ job ++ " must not be negative, got " ++ toString size
    | noAutoscalerSpec name => "HorizontalPodAutoscaler " ++ name ++ " has no spec"
    | namelessAutoscaler => "HorizontalPodAutoscaler without a name"
    | gaveUp kind name ns size attempts last =>
      "failed to scale " ++ kind ++ " " ++ name ++ " in " ++ ns ++ " namespace to " ++
        toString size ++ " after retrying " ++ toString attempts ++ " times, because of " ++
        last.message
    | missing what => what
    | outdated what => what
    | reported _ m => m

/-- Whether a fault says that something is not there. -/
def isMissing (f : Fault) : Bool := f.kind == .notFound

end Fault

end CronScale
