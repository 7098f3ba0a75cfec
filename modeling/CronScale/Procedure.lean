/-!
# Procedures that ask

A procedure is a finite adaptive program: it either is done, or asks its surroundings for something
and goes on with the answer. What it may ask for, and what kind of answer comes back, is its
interface. The same procedure can be run in one go against surroundings that answer at once
(`run`), or one call at a time, with other things happening between its calls. `run_bind` says
that running a sequence is running its parts one after the other.
-/

namespace CronScale

/-- What a procedure may ask for and what is answered. -/
structure Interface where
  Call : Type
  Reply : Call → Type

/-- A program that asks its surroundings and is done after finitely many answers. -/
inductive Procedure (I : Interface) (α : Type) : Type where
  | done (a : α)
  | ask (c : I.Call) (next : I.Reply c → Procedure I α)

namespace Procedure

variable {I : Interface} {α β σ : Type}

def bind : Procedure I α → (α → Procedure I β) → Procedure I β
  | done a, f => f a
  | ask c next, f => ask c fun r => bind (next r) f

instance : Monad (Procedure I) where
  pure := done
  bind := bind

def call (c : I.Call) : Procedure I (I.Reply c) := ask c done

/-- Runs a procedure against surroundings that answer at once and may change as they do. -/
def run (answer : (c : I.Call) → σ → I.Reply c × σ) : Procedure I α → σ → α × σ
  | done a, s => (a, s)
  | ask c next, s =>
    let (r, s) := answer c s
    run answer (next r) s

theorem run_bind (answer : (c : I.Call) → σ → I.Reply c × σ) (p : Procedure I α)
    (f : α → Procedure I β) (s : σ) :
    (p.bind f).run answer s = (f (p.run answer s).1).run answer (p.run answer s).2 := by
  induction p generalizing s with
  | done a => rfl
  | ask c next ih => exact ih _ _

/-- `run_bind` for sequences written in the notation of monads. -/
theorem run_seq (answer : (c : I.Call) → σ → I.Reply c × σ) (p : Procedure I α)
    (f : α → Procedure I β) (s : σ) :
    (p >>= f).run answer s = (f (p.run answer s).1).run answer (p.run answer s).2 :=
  run_bind answer p f s

theorem bind_assoc {γ : Type} (p : Procedure I α) (f : α → Procedure I β)
    (g : β → Procedure I γ) : (p.bind f).bind g = p.bind fun a => (f a).bind g := by
  induction p with
  | done a => rfl
  | ask c next ih => exact congrArg (ask c) (funext ih)

theorem bind_done (p : Procedure I α) : p.bind done = p := by
  induction p with
  | done a => rfl
  | ask c next ih => exact congrArg (ask c) (funext ih)

end Procedure

end CronScale
