/-!
# The fields of an expression

An expression has six fields, from seconds to days of the week. Each has its own range of values,
and months and days of the week also have names of three letters, in either case.
-/

namespace CronScale.Schedule

/-- A field, or the expression as a whole. -/
inductive Field where
  | expression
  | second
  | minute
  | hour
  | dayOfMonth
  | month
  | dayOfWeek
  deriving DecidableEq, Repr

namespace Field

def name : Field → String
  | expression => "expression"
  | second => "second"
  | minute => "minute"
  | hour => "hour"
  | dayOfMonth => "day-of-month"
  | month => "month"
  | dayOfWeek => "day-of-week"

def low : Field → Nat
  | dayOfMonth => 1
  | month => 1
  | _ => 0

def high : Field → Nat
  | second => 59
  | minute => 59
  | hour => 23
  | dayOfMonth => 31
  | month => 12
  | dayOfWeek => 6
  | expression => 0

def range (f : Field) : List Nat := (List.range (f.high + 1)).filter (f.low ≤ ·)

/-- The names of values, the first of them for the smallest value. -/
def valueNames : Field → List String
  | month => ["JAN", "FEB", "MAR", "APR", "MAY", "JUN", "JUL", "AUG", "SEP", "OCT", "NOV", "DEC"]
  | dayOfWeek => ["SUN", "MON", "TUE", "WED", "THU", "FRI", "SAT"]
  | _ => []

/-- The value with a name, whatever the case of its letters. -/
def namedValue? (f : Field) (s : List Char) : Option Nat :=
  let upper := String.ofList (s.map Char.toUpper)
  (f.valueNames.findIdx? (· == upper)).map (· + f.low)

/-- Whether a question mark may stand for all values. -/
def allowsQuestionMark : Field → Bool
  | dayOfMonth => true
  | dayOfWeek => true
  | _ => false

theorem mem_range {f : Field} {v : Nat} : v ∈ f.range ↔ f.low ≤ v ∧ v ≤ f.high := by
  simp only [range, List.mem_filter, List.mem_range, decide_eq_true_eq]
  omega

end Field

end CronScale.Schedule
