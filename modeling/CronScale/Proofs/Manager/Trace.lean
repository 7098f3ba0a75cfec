import Mathlib.Logic.Relation
import CronScale.Proofs.Manager.Smooth
/-!
# Traces

A trace is what a procedure has asked for up to some point, with the worlds before and after each of
its calls; before, between and after the calls other things may happen. What holds of a world and
of the procedure that is left, whatever happens in between and however a call is answered, holds all
along the trace (`Trace.invariant`).
-/

namespace CronScale

open CronScale.Calendar

namespace World

/-- A call that was made, with the worlds before and after it. -/
structure Deed where
  before : World
  call : DeskCall
  after : World

/-- A procedure that has been carried out up to some point, with the calls that it has made by then
and with what is left of it. -/
inductive Trace {α : Type} (between : World → World → Prop) :
    World → Procedure Desk α → List Deed → World → Procedure Desk α → Prop
  | here (w : World) (p : Procedure Desk α) : Trace between w p [] w p
  | between {w w' w'' : World} {p q : Procedure Desk α} {deeds : List Deed} :
      between w w' → Trace between w' p deeds w'' q → Trace between w p deeds w'' q
  | ask {w w' w'' : World} {c : DeskCall} {next : c.Reply → Procedure Desk α} {reply : c.Reply}
      {q : Procedure Desk α} {deeds : List Deed} :
      Answers w c reply w' → Trace between w' (next reply) deeds w'' q →
      Trace between w (.ask c next) (⟨w, c, w'⟩ :: deeds) w'' q

section

variable {α : Type} {between between' : World → World → Prop} {w w' : World}
  {p q : Procedure Desk α} {deeds : List Deed}

theorem Trace.mono (h : Trace between w p deeds w' q)
    (hbetween : ∀ w w', between w w' → between' w w') : Trace between' w p deeds w' q := by
  induction h with
  | here w p => exact .here w p
  | between hstep _ ih => exact .between (hbetween _ _ hstep) ih
  | ask hanswer _ ih => exact .ask hanswer ih

/-- What happens after the last call of a trace belongs to it. -/
theorem Trace.later {w'' : World} (h : Trace between w p deeds w' q) (hstep : between w' w'') :
    Trace between w p deeds w'' q := by
  induction h with
  | here w p => exact .between hstep (.here _ _)
  | between hstep' _ ih => exact .between hstep' (ih hstep)
  | ask hanswer _ ih => exact .ask hanswer (ih hstep)

/-- The next call of a trace belongs to it. -/
theorem Trace.next {w'' : World} {c : DeskCall} {next : c.Reply → Procedure Desk α}
    {reply : c.Reply} (h : Trace between w p deeds w' (.ask c next))
    (hanswer : Answers w' c reply w'') :
    Trace between w p (deeds ++ [⟨w', c, w''⟩]) w'' (next reply) := by
  generalize hq : (.ask c next : Procedure Desk α) = q at h
  induction h with
  | here w p =>
    subst hq
    exact .ask hanswer (.here _ _)
  | between hstep _ ih => exact .between hstep (ih hanswer hq)
  | ask hanswer' _ ih => exact .ask hanswer' (ih hanswer hq)

theorem Trace.exec {a : α} (h : Trace between w p deeds w' (.done a)) :
    ∃ own, Exec between w p own a w' := by
  generalize hq : Procedure.done a = q at h
  induction h with
  | here w p =>
    subst hq
    exact ⟨[], .done a⟩
  | between hstep _ ih =>
    obtain ⟨own, hexec⟩ := ih hq
    exact ⟨own, .between hstep hexec⟩
  | ask hanswer _ ih =>
    obtain ⟨own, hexec⟩ := ih hq
    exact ⟨_, .ask hanswer hexec⟩

theorem Trace.of_done {a : α} (h : Trace between w (.done a) deeds w' q) :
    Relation.ReflTransGen between w w' ∧ q = .done a := by
  generalize hp : (.done a : Procedure Desk α) = p at h
  induction h with
  | here w p => exact ⟨.refl, rfl⟩
  | between hstep _ ih =>
    obtain ⟨hsteps, hq⟩ := ih hp
    exact ⟨.head hstep hsteps, hq⟩
  | ask _ _ _ => exact absurd hp (by simp)

/-- A procedure that asks has not been answered yet, or has gone on with the answer. -/
theorem Trace.of_ask {c : DeskCall} {next : c.Reply → Procedure Desk α}
    (h : Trace between w (.ask c next) deeds w' q) :
    Relation.ReflTransGen between w w' ∧ q = .ask c next ∧ deeds = [] ∨
      ∃ w₁ reply w₂ rest, Relation.ReflTransGen between w w₁ ∧ Answers w₁ c reply w₂ ∧
        deeds = ⟨w₁, c, w₂⟩ :: rest ∧ Trace between w₂ (next reply) rest w' q := by
  generalize hp : (.ask c next : Procedure Desk α) = p at h
  induction h with
  | here w p => exact .inl ⟨.refl, rfl, rfl⟩
  | between hstep _ ih =>
    rcases ih hp with ⟨hsteps, hrest⟩ | ⟨w₁, reply, w₂, rest, hsteps, hrest⟩
    · exact .inl ⟨.head hstep hsteps, hrest⟩
    · exact .inr ⟨w₁, reply, w₂, rest, .head hstep hsteps, hrest⟩
  | ask hanswer hrest _ =>
    cases hp
    exact .inr ⟨_, _, _, _, .refl, hanswer, rfl, hrest⟩

/-- What a procedure that was carried out to its end has asked first. -/
theorem Trace.first {a : α} {c : DeskCall} {next : c.Reply → Procedure Desk α}
    (h : Trace between w (.ask c next) deeds w' (.done a)) :
    ∃ w₁ reply w₂ rest, Relation.ReflTransGen between w w₁ ∧ Answers w₁ c reply w₂ ∧
      deeds = ⟨w₁, c, w₂⟩ :: rest ∧ Trace between w₂ (next reply) rest w' (.done a) := by
  rcases h.of_ask with ⟨_, hq, _⟩ | hfirst
  · exact absurd hq (by simp)
  · exact hfirst

/-- What every answer and everything that happens in between keeps holds at every call of a trace
and at its end. -/
theorem Trace.invariant {inv : World → Procedure Desk α → Prop}
    (h : Trace between w p deeds w' q)
    (hbetween : ∀ w w' p, inv w p → between w w' → inv w' p)
    (hask : ∀ w c (next : DeskCall.Reply c → Procedure Desk α) reply w', inv w (.ask c next) →
      Answers w c reply w' → inv w' (next reply))
    (hstart : inv w p) :
    inv w' q ∧ ∀ d ∈ deeds, ∃ (next : d.call.Reply → Procedure Desk α) (reply : d.call.Reply),
      inv d.before (.ask d.call next) ∧ Answers d.before d.call reply d.after := by
  induction h with
  | here w p => exact ⟨hstart, fun _ hd => absurd hd List.not_mem_nil⟩
  | between hstep _ ih => exact ih (hbetween _ _ _ hstart hstep)
  | ask hanswer _ ih =>
    obtain ⟨hend, hdeeds⟩ := ih (hask _ _ _ _ _ hstart hanswer)
    exact ⟨hend, List.forall_mem_cons.2 ⟨⟨_, _, hstart, hanswer⟩, hdeeds⟩⟩

theorem smooth?_of_succeeds {now : Instant} {p : Procedure Desk (Except Fault Unit)}
    (h : succeeds now p w = true) : ∃ w', smooth? now p w = some (.ok (), w') := by
  unfold succeeds at h
  split at h
  · rename_i w' hsmooth
    exact ⟨w', hsmooth⟩
  · exact absurd h (by decide)

/-- The calls of a run in which nothing fails. -/
def smoothDeeds (now : Instant) : Procedure Desk α → World → List Deed
  | .done _, _ => []
  | .ask c next, w =>
    match w.oblige? now c with
    | none => []
    | some (reply, w') => ⟨w, c, w'⟩ :: smoothDeeds now (next reply) w'

theorem trace_of_smooth? {now : Instant} {a : α} (between : World → World → Prop)
    (h : smooth? now p w = some (a, w')) :
    Trace between w p (smoothDeeds now p w) w' (.done a) := by
  induction p generalizing w with
  | done b =>
    obtain ⟨rfl, rfl⟩ := Prod.mk.inj (Option.some.inj h)
    exact .here _ _
  | ask c next ih =>
    obtain ⟨⟨reply, w₁⟩, hanswer, hrest⟩ := Option.bind_eq_some_iff.1 h
    rw [smoothDeeds, hanswer]
    exact .ask (answers_of_oblige? hanswer) (ih reply hrest)

end

end World

end CronScale
