import CronScale.Schedule.Next
import CronScale.Schedule.Parse
/-!
# Days without any activity

An exclusion is an expression that takes a day out while it still has an occurrence to come on that
day. Expressions that cannot be read exclude nothing.
-/

namespace CronScale.Schedule

open CronScale.Calendar

/-- Whether an expression has an occurrence to come on the day that the clock shows. -/
def excludes (z : Zone) (now : Instant) (expr : String) : Bool :=
  match parse expr with
  | .error _ => false
  | .ok s =>
    match s.nextAfter z now with
    | some t => z.dayAt t == z.dayAt now
    | none => false

/-- The first of the expressions that excludes the day that the clock shows. -/
def excludedBy (exprs : List String) (z : Zone) (now : Instant) : Option String :=
  exprs.find? (excludes z now)

end CronScale.Schedule
