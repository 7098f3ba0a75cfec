import CronScale.Proofs.Manager.Happenings
import CronScale.Proofs.Manager.Smooth
import Mathlib.Logic.Relation
/-!
# Runs with chosen answers

Single runs can be computed from surroundings whose answers are chosen: of one procedure by itself
(`follow?`), or of what is under way in a world, some calls at a time (`attend`). Where the chosen
answers are among the possible ones, what is computed is a run of the world.
-/

namespace CronScale

open CronScale.Calendar

namespace World

/-- Surroundings that choose an answer to every call, or give none. -/
abbrev Chooser := World → (c : DeskCall) → Option (c.Reply × World)

/-- Whether all chosen answers are among the possible ones. -/
def Chooser.Right (answer : Chooser) : Prop :=
  ∀ w c reply w', answer w c = some (reply, w') → w.Answers c reply w'

/-- Surroundings in which nothing fails, and in which a given id is handed out. -/
def obligeAs? (id : String) (now : Instant) (w : World) : (c : DeskCall) → Option (c.Reply × World)
  | .freshId owner name =>
    if id ≠ "" ∧ w.issued id = none then some (id, w.issue id owner name) else none
  | c => w.oblige? now c

/-- Carries a procedure out with chosen answers. -/
def follow? {α : Type} (answer : Chooser) : Procedure Desk α → World → Option (α × World)
  | .done a, w => some (a, w)
  | .ask c next, w => (answer w c).bind fun (reply, w) => follow? answer (next reply) w

/-- Lets one of the procedures under way make a number of calls, or as many as are answered. A
procedure that has made a call comes first from then on. -/
def attend (answer : Chooser) (place : Nat) : Nat → World → World
  | 0, w => w
  | n + 1, w =>
    match w.procedures.drop place with
    | .ask c next :: qs =>
      match answer { w with procedures := w.procedures.take place ++ qs } c with
      | some (reply, w') => attend answer 0 n { w' with procedures := next reply :: w'.procedures }
      | none => w
    | _ => w

/-- Lets a procedure make a number of calls, or as many as are answered; the rest of it is left. -/
def lead {α : Type} (answer : Chooser) : Nat → Procedure Desk α → World → Procedure Desk α × World
  | n + 1, .ask c next, w =>
    match answer w c with
    | some (reply, w') => lead answer n (next reply) w'
    | none => (.ask c next, w)
  | _, p, w => (p, w)

variable {w w' : World} {answer : Chooser} {now : Instant}

theorem right_oblige? (now : Instant) : Chooser.Right (oblige? now) :=
  fun _ _ _ _ h => answers_of_oblige? h

theorem right_obligeAs? (id : String) (now : Instant) : Chooser.Right (obligeAs? id now) := by
  intro w c reply w' h
  cases c with
  | freshId owner name =>
    simp only [obligeAs?] at h
    split at h
    · rename_i hfresh
      obtain ⟨rfl, rfl⟩ := Prod.mk.inj (Option.some.inj h)
      exact ⟨hfresh.1, hfresh.2, rfl⟩
    · exact absurd h (Option.some_ne_none _).symm
  | _ => exact @answers_of_oblige? w w' now _ reply h

theorem exec_of_follow? {α : Type} {p : Procedure Desk α} {a : α} (hanswer : answer.Right)
    (between : World → World → Prop) (h : follow? answer p w = some (a, w')) :
    ∃ own, Exec between w p own a w' := by
  induction p generalizing w with
  | done b =>
    obtain ⟨rfl, rfl⟩ := Prod.mk.inj (Option.some.inj h)
    exact ⟨[], .done b⟩
  | ask c next ih =>
    obtain ⟨⟨reply, w₁⟩, hreply, hrest⟩ := Option.bind_eq_some_iff.1 h
    obtain ⟨own, hexec⟩ := ih reply hrest
    exact ⟨_, .ask (hanswer _ _ _ _ hreply) hexec⟩

/-- A procedure that was carried out after its first calls was carried out. -/
theorem exec_of_lead {α : Type} {between : World → World → Prop} {n : Nat} {p : Procedure Desk α}
    {own : List (World × World)} {a : α} (hanswer : answer.Right)
    (h : Exec between (lead answer n p w).2 (lead answer n p w).1 own a w') :
    ∃ own', Exec between w p own' a w' := by
  induction n generalizing p w with
  | zero => exact ⟨own, h⟩
  | succ n ih =>
    cases p with
    | done b => exact ⟨own, h⟩
    | ask c next =>
      simp only [lead] at h
      split at h
      · rename_i reply w₁ hreply
        obtain ⟨own', hexec⟩ := ih h
        exact ⟨_, .ask (hanswer _ _ _ _ hreply) hexec⟩
      · exact ⟨own, h⟩

theorem Exec.of_run {α : Type} {between : World → World → Prop} {w₁ : World} {p : Procedure Desk α}
    {own : List (World × World)} {a : α} (hrun : Relation.ReflTransGen between w w₁)
    (h : Exec between w₁ p own a w') : Exec between w p own a w' := by
  induction hrun using Relation.ReflTransGen.head_induction_on with
  | refl => exact h
  | head hstep _ ih => exact .between hstep ih

/-- What is computed is a run in which nothing happens but calls. -/
theorem attend_run {test : Happening → Prop} (hanswer : answer.Right)
    (hcall : ∀ w c reply w', answer w c = some (reply, w') → test (.call c reply)) (place n : Nat)
    (w : World) :
    Relation.ReflTransGen (Amidst test) w (attend answer place n w) := by
  induction n generalizing place w with
  | zero => exact .refl
  | succ n ih =>
    unfold attend
    split
    · rename_i c next qs hdrop
      split
      · rename_i reply w' hreply
        have hask : w.procedures = w.procedures.take place ++ Procedure.ask c next :: qs := by
          rw [← hdrop, List.take_append_drop]
        have hstep : Happens (.call c reply) w
            { w' with procedures := next reply :: w'.procedures } :=
          .call next reply hask (hanswer _ _ _ _ hreply)
        exact .head ⟨_, hcall _ c reply w' hreply, hstep⟩ (ih 0 _)
      · exact .refl
    · exact .refl

/-- Begins a procedure and attends to it. -/
def attended (answer : Chooser) (n : Nat) (p : Procedure Desk Unit) (w : World) : World :=
  attend answer 0 n { w with procedures := p :: w.procedures }

theorem attended_run {test : Happening → Prop} {p : Procedure Desk Unit} (hanswer : answer.Right)
    (hcall : ∀ w c reply w', answer w c = some (reply, w') → test (.call c reply)) (hp : Begun p)
    (hbegin : test (.begin p)) (n : Nat) (w : World) :
    Relation.ReflTransGen (Amidst test) w (w.attended answer n p) :=
  .head ⟨_, hbegin, .begin p hp⟩ (attend_run hanswer hcall 0 n _)

/-- The world after the first outcome that was awaited has arrived, and its recording was begun. -/
def arrived (settings : ManagerSettings) (outcome : Except Fault String) (w : World) : World :=
  match w.executing with
  | [] => w
  | job :: jobs =>
    { w with executing := jobs, procedures := record settings job outcome :: w.procedures }

theorem arrived_run {test : Happening → Prop} (hfinish : ∀ job ∈ w.executing, test (.finish job))
    (settings : ManagerSettings) (outcome : Except Fault String) :
    Relation.ReflTransGen (Amidst test) w (w.arrived settings outcome) := by
  unfold arrived
  split
  · exact .refl
  · rename_i job jobs hexecuting
    have hjob : w.executing = [] ++ job :: jobs := hexecuting
    have htest := hfinish job (hexecuting ▸ List.mem_cons_self)
    exact .single ⟨_, htest, .finish job settings outcome hjob⟩

/-- Whether nothing is under way any more. -/
def idle (w : World) : Bool :=
  w.procedures.all fun
    | .done _ => true
    | .ask _ _ => false

theorem done_of_idle (h : w.idle = true) : ∀ p ∈ w.procedures, p = .done () := by
  intro p hp
  have hdone := List.all_eq_true.1 h p hp
  cases p with
  | done a => rfl
  | ask c next => exact absurd hdone Bool.false_ne_true

theorem reachable_of_run {test : Happening → Prop} (h : Reachable w)
    (hrun : Relation.ReflTransGen (Amidst test) w w') : Reachable w' := by
  induction hrun with
  | refl => exact h
  | tail _ hstep ih => exact ih.step hstep.step

theorem reachable_attend (h : Reachable w) (hanswer : answer.Right) (place n : Nat) :
    Reachable (attend answer place n w) := by
  have hrun : Relation.ReflTransGen (Amidst fun _ => True) w (attend answer place n w) :=
    attend_run hanswer (fun _ _ _ _ _ => trivial) place n w
  exact reachable_of_run h hrun

theorem reachable_attended {p : Procedure Desk Unit} (h : Reachable w) (hanswer : answer.Right)
    (hp : Begun p) (n : Nat) : Reachable (w.attended answer n p) :=
  reachable_attend (h.step (.begin p hp)) hanswer 0 n

end World

end CronScale
