import CronScale.Procedure
/-!
# What is asked and answered

What a procedure asks depends on what it was answered before. Once it is settled how its first call,
its second call and so on are answered, whatever they are, so is everything that it asks and is
answered until it is done.
-/

namespace CronScale

/-- A call with its answer. -/
structure Exchange (I : Interface) where
  call : I.Call
  reply : I.Reply call

namespace Procedure

variable {I : Interface} {α : Type}

/-- What a procedure asks and is answered, if `answers i` answers its call with the number `i`. -/
def exchanges : Procedure I α → (Nat → (c : I.Call) → I.Reply c) → List (Exchange I)
  | done _, _ => []
  | ask c next, answers =>
    ⟨c, answers 0 c⟩ :: exchanges (next (answers 0 c)) fun i => answers (i + 1)

end Procedure

end CronScale
