import CronScale.Calendar.DateText
import CronScale.Schedule.Basic
/-!
# Reading expressions

An expression is six fields apart by blanks, or a descriptor after an at sign. A field is a list of
parts apart by commas; a part is a range of values, taken whole or in steps. The value set of a
field is the union of what its parts cover, within the range of the field. When something is
wrong, the first field from the left is blamed, in it the first part, and in that the step before
the values.
-/

namespace CronScale.Schedule

open CronScale.Text CronScale.Calendar

/-- What is wrong with an expression. -/
inductive Reason where
  | emptyExpression
  | fieldCount (found : Nat)
  | emptyElement
  | badStep (text : String)
  | zeroStep
  | stepTooLarge (step limit : Nat)
  | misplacedQuestionMark
  | badValue (text : String)
  | outsideRange (part : String) (low high : Nat)
  | reversedRange (start stop : Nat)
  | badDate (cause : DateTextError)
  | unknownDescriptor (text : String)
  deriving DecidableEq, Repr

def Reason.message : Reason → String
  | .emptyExpression => "empty expression"
  | .fieldCount n => "expected 6 fields, found " ++ toString n
  | .emptyElement => "empty list element"
  | .badStep s => "invalid step '" ++ s ++ "'"
  | .zeroStep => "step must be positive"
  | .stepTooLarge n m => "step " ++ toString n ++ " exceeds maximum " ++ toString m
  | .misplacedQuestionMark => "'?' is only allowed in day fields"
  | .badValue s => "invalid value '" ++ s ++ "'"
  | .outsideRange s l h => "'" ++ s ++ "' is out of range " ++ toString l ++ "-" ++ toString h
  | .reversedRange s e => "range start " ++ toString s ++ " is beyond end " ++ toString e
  | .badDate e => "invalid @date: " ++ e.message
  | .unknownDescriptor s => "unrecognized descriptor @" ++ s

/-- An expression that cannot be read: the field to blame, the expression as given and why. -/
structure ParseError where
  field : Field
  expr : String
  reason : Reason
  deriving DecidableEq, Repr

def ParseError.message (e : ParseError) : String :=
  "invalid " ++ e.field.name ++ " field in '" ++ e.expr ++ "': " ++ e.reason.message

/-- The values from `start` to `stop` that are a number of steps away from `start`. -/
structure Part where
  start : Nat
  stop : Nat
  step : Nat
  /-- Whether the part stands for all values without a restriction. -/
  unrestricted : Bool
  deriving DecidableEq, Repr

/-- Whether a part covers a value. -/
def Part.covers (p : Part) (v : Nat) : Bool :=
  p.start ≤ v && v ≤ p.stop && (v - p.start) % p.step == 0

/-- Reads a value of a field, as a number or by its name. -/
def readValue (f : Field) (cs : List Char) : Except Reason Nat :=
  match readNumeral word32 cs with
  | .ok n => .ok n
  | .error _ =>
    match f.namedValue? cs with
    | some n => .ok n
    | none => .error (.badValue (String.ofList cs))

/-- Reads the length of the steps through a range. -/
def readStep (f : Field) (cs : List Char) : Except Reason Nat :=
  match readNumeral word32 cs with
  | .error _ => .error (.badStep (String.ofList cs))
  | .ok n =>
    if n = 0 then .error .zeroStep
    else if f.high < n then .error (.stepTooLarge n f.high)
    else .ok n

/-- Reads a range: the first and the last value and whether it stands for all values. A single value
with a step after it begins a range up to the greatest value. -/
def readRange (f : Field) (stepped : Bool) (cs : List Char) : Except Reason (Nat × Nat × Bool) :=
  if cs = ['*'] ∨ cs = ['?'] then
    if cs = ['?'] ∧ f.allowsQuestionMark = false then .error .misplacedQuestionMark
    else .ok (f.low, f.high, true)
  else
    match cut '-' cs with
    | some (a, b) => do
      let low ← readValue f a
      let high ← readValue f b
      pure (low, high, false)
    | none => do
      let low ← readValue f cs
      pure (low, if stepped then f.high else low, false)

/-- Checks that a range lies within its field and is not reversed. -/
def checkRange (f : Field) (text : List Char) (start stop : Nat) : Except Reason Unit :=
  if start < f.low ∨ f.high < stop then
    .error (.outsideRange (String.ofList text) f.low f.high)
  else if stop < start then .error (.reversedRange start stop)
  else .ok ()

def readPart (f : Field) (cs : List Char) : Except Reason Part :=
  if cs = [] then .error .emptyElement
  else
    match cut '/' cs with
    | some (range, step) => do
      let n ← readStep f step
      let (start, stop, all) ← readRange f true range
      checkRange f cs start stop
      pure ⟨start, stop, n, all && n == 1⟩
    | none => do
      let (start, stop, all) ← readRange f false cs
      checkRange f cs start stop
      pure ⟨start, stop, 1, all⟩

/-- The values of a field and whether they are unrestricted. -/
structure FieldSet where
  values : List Nat
  unrestricted : Bool
  deriving DecidableEq, Repr

/-- What a list of parts covers together. -/
def FieldSet.ofParts (f : Field) (parts : List Part) : FieldSet where
  values := f.range.filter fun v => parts.any (·.covers v)
  unrestricted := parts.any (·.unrestricted)

def readField (f : Field) (token : List Char) : Except Reason FieldSet := do
  let parts ← (splitOn ',' token).mapM (readPart f)
  pure (FieldSet.ofParts f parts)

/-- Reads one field and blames it if something is wrong. -/
def fieldOf (expr : String) (f : Field) (token : List Char) : Except ParseError FieldSet :=
  (readField f token).mapError fun reason => ⟨f, expr, reason⟩

def readFields (expr : String) (cs : List Char) : Except ParseError Schedule :=
  match words cs with
  | [s, m, h, dom, mon, dow] => do
    let seconds ← fieldOf expr .second s
    let minutes ← fieldOf expr .minute m
    let hours ← fieldOf expr .hour h
    let daysOfMonth ← fieldOf expr .dayOfMonth dom
    let months ← fieldOf expr .month mon
    let daysOfWeek ← fieldOf expr .dayOfWeek dow
    pure <| .recurring
      { seconds := seconds.values, minutes := minutes.values, hours := hours.values
        daysOfMonth := daysOfMonth.values, months := months.values
        daysOfWeek := daysOfWeek.values
        anyDayOfMonth := daysOfMonth.unrestricted, anyDayOfWeek := daysOfWeek.unrestricted }
  | ws => .error ⟨.expression, expr, .fieldCount ws.length⟩

/-- The six fields that a descriptor stands for. -/
def fieldsOfDescriptor? : String → Option String
  | "yearly" => some "0 0 0 1 1 *"
  | "annually" => some "0 0 0 1 1 *"
  | "monthly" => some "0 0 0 1 * *"
  | "weekly" => some "0 0 0 * * 0"
  | "daily" => some "0 0 0 * * *"
  | "midnight" => some "0 0 0 * * *"
  | "hourly" => some "0 0 * * * *"
  | _ => none

def readDescriptor (expr : String) (cs : List Char) : Except ParseError Schedule :=
  match dropBeginning "date ".toList cs with
  | some date =>
    match readDateTime (trim date) with
    | .ok r => .ok (.once r)
    | .error e => .error ⟨.expression, expr, .badDate e⟩
  | none =>
    match fieldsOfDescriptor? (String.ofList cs) with
    | some fields => readFields fields fields.toList
    | none => .error ⟨.expression, expr, .unknownDescriptor (String.ofList cs)⟩

def parse (expr : String) : Except ParseError Schedule :=
  match trim expr.toList with
  | [] => .error ⟨.expression, expr, .emptyExpression⟩
  | '@' :: cs => readDescriptor expr cs
  | cs => readFields expr cs

def parses (expr : String) : Bool := (parse expr).isOk

end CronScale.Schedule
