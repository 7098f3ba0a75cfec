import CronScale.Proofs.Manager.World
/-!
# Steps by their kinds

The steps of a world, each with what happens in it, so that a run can be said to have some kinds of
steps and no others (`World.Amidst`).
-/

namespace CronScale

open CronScale.Calendar

/-- What happens in a step. -/
inductive Happening where
  | put (r : Resource)
  | delete (key : OwnerKey)
  | begin (p : Procedure Desk Unit)
  | call (c : DeskCall) (reply : c.Reply)
  | turn
  | start
  | stop
  | finish (job : Job)
  | lose (job : Job)
  | restart

namespace World

/-- The steps in which something happens. -/
inductive Happens : Happening → World → World → Prop
  | put {w : World} (r : Resource) (version : String) (hfresh : version ∉ w.versions r.key) :
      Happens (.put r) w
        (w.write r.key { r with status := (w.resources r.key).bind (·.status) } version)
  | delete {w : World} (key : OwnerKey) : Happens (.delete key) w (w.delete key)
  | begin {w : World} (p : Procedure Desk Unit) (hp : Begun p) :
      Happens (.begin p) w { w with procedures := p :: w.procedures }
  | call {w w' : World} {ps qs : List (Procedure Desk Unit)} {c : DeskCall}
      (next : c.Reply → Procedure Desk Unit) (reply : c.Reply)
      (hask : w.procedures = ps ++ .ask c next :: qs)
      (hanswer : Answers { w with procedures := ps ++ qs } c reply w') :
      Happens (.call c reply) w { w' with procedures := next reply :: w'.procedures }
  | turn {w : World} (now : Int) :
      Happens .turn w { w with
        manager := { w.manager with engine := (w.manager.engine.turn now).2 }
        executing := w.executing ++ (w.manager.engine.turn now).1
        executed := w.executed ++ (w.manager.engine.turn now).1 }
  | start {w : World} (now : Int) :
      Happens .start w
        { w with manager := { w.manager with engine := w.manager.engine.start now } }
  | stop {w : World} :
      Happens .stop w { w with manager := { w.manager with engine := w.manager.engine.stop } }
  | finish {w : World} {js ks : List Job} (job : Job) (settings : ManagerSettings)
      (outcome : Except Fault String) (hjob : w.executing = js ++ job :: ks) :
      Happens (.finish job) w { w with
        executing := js ++ ks
        procedures := record settings job outcome :: w.procedures }
  | lose {w : World} {js ks : List Job} (job : Job) (hjob : w.executing = js ++ job :: ks) :
      Happens (.lose job) w { w with executing := js ++ ks }
  | restart {w : World} (zone : Zone) (staleness : Int) :
      Happens .restart w
        { w with manager := .empty zone staleness, procedures := [], executing := [] }

/-- The steps in which something happens that passes a test. -/
def Amidst (test : Happening → Prop) (w w' : World) : Prop := ∃ h, test h ∧ Happens h w w'

variable {w w' : World}

theorem Happens.step {h : Happening} (hhappens : Happens h w w') : Step w w' := by
  cases hhappens with
  | put r version hfresh => exact .put r version hfresh
  | delete key => exact .delete key
  | begin p hp => exact .begin p hp
  | call next reply hask hanswer => exact .call next reply hask hanswer
  | turn now => exact .turn now
  | start now => exact .start now
  | stop => exact .stop
  | finish job settings outcome hjob => exact .finish job settings outcome hjob
  | lose job hjob => exact .lose job hjob
  | restart zone staleness => exact .restart zone staleness

theorem Amidst.step {test : Happening → Prop} (h : Amidst test w w') : Step w w' :=
  h.choose_spec.2.step

theorem Amidst.mono {test test' : Happening → Prop} (h : Amidst test w w')
    (htest : ∀ happening, test happening → test' happening) : Amidst test' w w' :=
  h.imp fun happening hboth => ⟨htest happening hboth.1, hboth.2⟩

end World

end CronScale
