import CronScale.Calendar.Timestamp
import CronScale.Json.Basic
/-!
# Taking JSON values apart

Every kind of value is read strictly: nothing stands for a value of another kind, and null only for
an optional value that is absent. Members that are not known are passed over, whatever they hold. A
record with declared members may also be written as the list of its values in the order of its
members; values left out at the end of such a list count as absent, which only members with a
default may be. No declared member may be given twice. The objects of the cluster are more lenient
here (`namedMembers`): of a member that is given more than once the last value counts, though each
has to be of the right kind; on the other hand they cannot be written as lists.
-/

namespace CronScale.Json

open CronScale.Calendar

def asText : Json → Option String
  | .text s => some s
  | _ => none

def asBool : Json → Option Bool
  | .bool b => some b
  | _ => none

/-- One given text. -/
def asGiven (s : String) (j : Json) : Option Unit := if j.asText = some s then some () else none

def asWhole (low high : Int) : Json → Option Int
  | .whole n => if low ≤ n ∧ n ≤ high then some n else none
  | _ => none

def asInt32 : Json → Option Int := asWhole (-2147483648) 2147483647

def asInt64 : Json → Option Int := asWhole (-9223372036854775808) 9223372036854775807

/-- A whole number of at most `high`, without a sign. -/
def asNat (high : Nat) (j : Json) : Option Nat := (asWhole 0 high j).map Int.toNat

/-- A list whose items are all read in the same way. -/
def asList {α : Type} (item : Json → Option α) : Json → Option (List α)
  | .list js => js.mapM item
  | _ => none

/-- An optional value, for which null may stand. -/
def asOptional {α : Type} (value : Json → Option α) : Json → Option (Option α)
  | .null => some none
  | j => (value j).map some

def asTimestamp (j : Json) : Option Instant := j.asText.bind readTimestamp

/-- A table from texts to values, of which the last one under a text counts. -/
def asTable {α : Type} (value : Json → Option α) : Json → Option (List (String × α))
  | .record ms => (ms.mapM fun m => (value m.2).map fun v => (m.1, v)).map sortMembers
  | _ => none

/-- A value for whose default null may stand. -/
def asDefaulted {α : Type} (default : α) (value : Json → Option α) : Json → Option α
  | .null => some default
  | j => value j

/-- The members of a record that are present, and whether they were given as a list. -/
structure Members where
  inOrder : Bool
  found : List (String × Json)

/-- The members of a record with the given names, in this order, no one of which is given twice. -/
def members (names : List String) : Json → Option Members
  | .record ms =>
    if names.all fun name => ms.countP (·.1 == name) ≤ 1 then some ⟨false, ms⟩ else none
  | .list js => if js.length ≤ names.length then some ⟨true, names.zip js⟩ else none
  | _ => none

/-- The members of a record that may be given more than once, but not as a list. -/
def namedMembers : Json → Option Members
  | .record ms => some ⟨false, ms⟩
  | _ => none

namespace Members

/-- What a member is read as, if it is present; each of its values has to be right, and the last one
counts. -/
def read? {α : Type} (m : Members) (name : String) (value : Json → Option α) :
    Option (Option α) :=
  ((m.found.filter (·.1 == name)).mapM fun p => value p.2).map List.getLast?

/-- A member that has to be present. -/
def required {α : Type} (m : Members) (name : String) (value : Json → Option α) : Option α :=
  (m.read? name value).join

def defaulted {α : Type} (m : Members) (name : String) (default : α) (value : Json → Option α) :
    Option α :=
  (m.read? name value).map (·.getD default)

/-- An optional member; only by name may it be left out. -/
def optional {α : Type} (m : Members) (name : String) (value : Json → Option α) :
    Option (Option α) := do
  match ← m.read? name (asOptional value) with
  | none => if m.inOrder then none else some none
  | some v => some v

/-- A member with a default, for which null may stand. -/
def settled {α : Type} (m : Members) (name : String) (default : α) (value : Json → Option α) :
    Option α :=
  m.defaulted name default (asDefaulted default value)

/-- Whether the version and the kind of an object are right, if they are given. -/
def isOfKind (m : Members) (apiVersion kind : String) : Option Unit := do
  m.defaulted "apiVersion" () (asGiven apiVersion)
  m.defaulted "kind" () (asGiven kind)

end Members

end CronScale.Json
