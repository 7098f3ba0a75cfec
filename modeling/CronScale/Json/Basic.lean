import CronScale.Json.Number
/-!
# JSON values

A value is kept as it is written: the members of a record stand in the order of the text, and a name
may occur more than once. In canonical form (`canonical?`) the members are in ascending order of
their names and the last one of a name counts, so that two records are equal when they have the
same members. A number is whole if it is written without a fraction and an exponent and fits in 64
bits, with or without a sign; any other number is a decimal, which has the text of a double in
canonical form.
-/

namespace CronScale

/-- A JSON value. -/
inductive Json where
  | null
  | bool (b : Bool)
  | whole (n : Int)
  | decimal (written : String)
  | text (s : String)
  | list (items : List Json)
  | record (members : List (String × Json))
  /-- A text with half of a surrogate pair, or a record with such a name: it can be passed over, but
  no characters spell it. -/
  | unreadable
  deriving BEq, Inhabited

namespace Json

/-- Puts a member into its place among members in ascending order; a member of the same name
gives way. -/
def putMember {α : Type} (name : String) (value : α) : List (String × α) → List (String × α)
  | [] => [(name, value)]
  | m :: ms =>
    if name < m.1 then (name, value) :: m :: ms
    else if name = m.1 then (name, value) :: ms
    else m :: putMember name value ms

/-- Members in ascending order of their names; the last one of a name counts. -/
def sortMembers {α : Type} (ms : List (String × α)) : List (String × α) :=
  ms.foldl (fun acc m => putMember m.1 m.2 acc) []

/-- The record with the given members; the last one of a name counts. -/
def ofMembers (ms : List (String × Json)) : Json := .record (sortMembers ms)

mutual

/-- The canonical form of a value that can be read and has at most `levels` lists and records within
one another. -/
def canonical? : Nat → Json → Option Json
  | 0, .list _ => none
  | 0, .record _ => none
  | levels + 1, .list js => (canonicalItems? levels js).map .list
  | levels + 1, .record ms => (canonicalMembers? levels ms).map ofMembers
  | _, .decimal s => (normalNumber? s).map .decimal
  | _, .unreadable => none
  | _, j => some j

def canonicalItems? : Nat → List Json → Option (List Json)
  | _, [] => some []
  | levels, j :: js => do
    let j ← canonical? levels j
    let js ← canonicalItems? levels js
    pure (j :: js)

/-- The members of a record with their values in canonical form. -/
def canonicalMembers? : Nat → List (String × Json) → Option (List (String × Json))
  | _, [] => some []
  | levels, m :: ms => do
    let j ← canonical? levels m.2
    let ms ← canonicalMembers? levels ms
    pure ((m.1, j) :: ms)

end

/-- How many lists and records may lie within one another in a text whose values all count. -/
def maxLevels : Nat := 127

def member? (name : String) : Json → Option Json
  | .record ms => (ms.find? (·.1 == name)).map Prod.snd
  | _ => none

def ofText? : Option String → Json
  | none => .null
  | some s => .text s

def ofWhole? : Option Int → Json
  | none => .null
  | some n => .whole n

def texts (ss : List String) : Json := .list (ss.map .text)

/-- Only the members that have a value. -/
def present (ms : List (String × Option Json)) : List (String × Json) :=
  ms.filterMap fun m => m.2.map fun v => (m.1, v)

end Json

end CronScale
