import CronScale.Json.Decode
/-!
# Shapes

A shape says of what kind a value has to be and which members it may have. Reading a value by its
shape (`Shape.read?`) leaves its known members, each read by its own shape, and fills in those that
have to be there. Null stands for a member that is absent, but for no item of a list and no value
of a table.
-/

namespace CronScale.Json

/-- What a value has to be like. -/
inductive Shape where
  | text
  | int32
  | int64
  | timestamp
  | list (item : Shape)
  | table (value : Shape)
  /-- A record with members that may be absent and members that are filled in. -/
  | record (optional filled : List (String × Shape))
  deriving Inhabited

namespace Shape

mutual

/-- The value that is filled in. -/
def blank : Shape → Json
  | .text => .text ""
  | .int32 => .whole 0
  | .int64 => .whole 0
  | .timestamp => .null
  | .list _ => .list []
  | .table _ => .record []
  | .record _ filled => ofMembers (blankMembers filled)

/-- The members that are filled in. -/
def blankMembers : List (String × Shape) → List (String × Json)
  | [] => []
  | s :: ss => (s.1, blank s.2) :: blankMembers ss

end

mutual

/-- What a value is read as. -/
def read? : Shape → Json → Option Json
  | .text, j => j.asText.map .text
  | .int32, j => j.asInt32.map .whole
  | .int64, j => j.asInt64.map .whole
  | .timestamp, j => j.asTimestamp.map fun t => .text t.secondText
  | .list s, j => (asList (read? s) j).map .list
  | .table s, j => (asTable (read? s) j).map .record
  | .record optional filled, j => do
    let m ← namedMembers j
    let given ← readOptional? optional m
    let all ← readFilled? filled m
    pure (ofMembers (given ++ all))

/-- The members that may be absent. -/
def readOptional? : List (String × Shape) → Members → Option (List (String × Json))
  | [], _ => some []
  | s :: ss, m => do
    let j ← m.optional s.1 (read? s.2)
    let js ← readOptional? ss m
    pure (present [(s.1, j)] ++ js)

/-- The members that are filled in. -/
def readFilled? : List (String × Shape) → Members → Option (List (String × Json))
  | [], _ => some []
  | s :: ss, m => do
    let j ← m.settled s.1 (blank s.2) (read? s.2)
    let js ← readFilled? ss m
    pure ((s.1, j) :: js)

end

end Shape

end CronScale.Json
