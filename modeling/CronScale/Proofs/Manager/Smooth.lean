import CronScale.Proofs.Manager.World
/-!
# Runs in which nothing fails

Surroundings that answer every call at one and the same time, refuse nothing and let nothing else
happen. An id is the name of the job for which it is given out, and a version the number of versions
before it; there is no answer where these are taken. What a procedure comes to in them can be
computed, and it is one of its runs in the world (`exec_of_succeeds`). In this way single worlds
that can come about are computed, too.
-/

namespace CronScale

open CronScale.Calendar

namespace World

/-- How a call is answered where nothing fails. -/
def oblige? (now : Instant) (w : World) : (c : DeskCall) → Option (c.Reply × World)
  | .store (.fetch key) => some (.ok (w.resources key), w)
  | .store (.patchStatus key s version) =>
    match w.resources key with
    | none => none
    | some r =>
      let next := toString (w.versions key).length
      if (version = none ∨ version = r.metadata.resourceVersion) ∧ next ∉ w.versions key then
        some (.ok (), w.write key { r with status := some s } next)
      else none
  | .store (.publish _ _) => some ((), w)
  | .manager c =>
    some ((w.manager.answer now c).1, { w with manager := (w.manager.answer now c).2 })
  | .freshId owner name =>
    if name ≠ "" ∧ w.issued name = none then some (name, w.issue name owner name) else none
  | .publishCounts _ => some ((), w)
  | .startSweep => some ((), { w with procedures := task sweep :: w.procedures })
  | .startReruns jobs => some ((), { w with executed := w.executed ++ jobs })

/-- Carries a procedure out where nothing fails. -/
def smooth? {α : Type} (now : Instant) : Procedure Desk α → World → Option (α × World)
  | .done a, w => some (a, w)
  | .ask c next, w => (w.oblige? now c).bind fun (reply, w) => smooth? now (next reply) w

/-- Whether a procedure succeeds where nothing fails. -/
def succeeds (now : Instant) (p : Procedure Desk (Except Fault Unit)) (w : World) : Bool :=
  match smooth? now p w with
  | some (.ok (), _) => true
  | _ => false

variable {w w' : World} {now : Instant}

theorem answers_of_oblige? {c : DeskCall} {reply : c.Reply}
    (h : w.oblige? now c = some (reply, w')) : w.Answers c reply w' := by
  cases c with
  | store c =>
    cases c with
    | fetch key =>
      obtain ⟨rfl, rfl⟩ := Prod.mk.inj (Option.some.inj h)
      exact ⟨rfl, .inl rfl⟩
    | patchStatus key s version =>
      simp only [oblige?] at h
      split at h
      · exact absurd h (Option.some_ne_none _).symm
      · rename_i r hr
        split at h
        · rename_i hversion
          obtain ⟨rfl, rfl⟩ := Prod.mk.inj (Option.some.inj h)
          exact .inl ⟨rfl, r, _, hr, hversion.1, hversion.2, rfl⟩
        · exact absurd h (Option.some_ne_none _).symm
    | publish r e =>
      obtain ⟨rfl, rfl⟩ := Prod.mk.inj (Option.some.inj h)
      rfl
  | manager c =>
    obtain ⟨rfl, rfl⟩ := Prod.mk.inj (Option.some.inj h)
    exact ⟨now, rfl, rfl⟩
  | freshId owner name =>
    simp only [oblige?] at h
    split at h
    · rename_i hfresh
      obtain ⟨rfl, rfl⟩ := Prod.mk.inj (Option.some.inj h)
      exact ⟨hfresh.1, hfresh.2, rfl⟩
    · exact absurd h (Option.some_ne_none _).symm
  | publishCounts counts =>
    obtain ⟨rfl, rfl⟩ := Prod.mk.inj (Option.some.inj h)
    rfl
  | startSweep =>
    obtain ⟨rfl, rfl⟩ := Prod.mk.inj (Option.some.inj h)
    rfl
  | startReruns jobs =>
    obtain ⟨rfl, rfl⟩ := Prod.mk.inj (Option.some.inj h)
    rfl

theorem exec_of_smooth? {α : Type} {p : Procedure Desk α} {a : α} (between : World → World → Prop)
    (h : smooth? now p w = some (a, w')) : ∃ own, Exec between w p own a w' := by
  induction p generalizing w with
  | done b =>
    obtain ⟨rfl, rfl⟩ := Prod.mk.inj (Option.some.inj h)
    exact ⟨[], .done b⟩
  | ask c next ih =>
    obtain ⟨⟨reply, w₁⟩, hanswer, hrest⟩ := Option.bind_eq_some_iff.1 h
    obtain ⟨own, hexec⟩ := ih reply hrest
    exact ⟨_, .ask (answers_of_oblige? hanswer) hexec⟩

theorem exec_of_succeeds {p : Procedure Desk (Except Fault Unit)} (between : World → World → Prop)
    (h : succeeds now p w = true) : ∃ own w', Exec between w p own (.ok ()) w' := by
  unfold succeeds at h
  split at h
  · rename_i w' hsmooth
    obtain ⟨own, hexec⟩ := exec_of_smooth? between hsmooth
    exact ⟨own, w', hexec⟩
  · exact absurd h (by decide)

/-! ### Worlds that come about -/

/-- The world after a procedure under way was carried out, if this can be done with nothing
failing. -/
def carried? (now : Instant) (p : Procedure Desk Unit) (w : World) : Option World :=
  (smooth? now p w).map fun result =>
    { result.2 with procedures := .done () :: result.2.procedures }

theorem reachable_carried? {p : Procedure Desk Unit}
    (h : Reachable { w with procedures := p :: w.procedures })
    (hcarried : carried? now p w = some w') : Reachable w' := by
  obtain ⟨⟨_, w''⟩, hsmooth, rfl⟩ := Option.map_eq_some_iff.1 hcarried
  clear hcarried
  induction p generalizing w with
  | done a =>
    obtain ⟨_, rfl⟩ := Prod.mk.inj (Option.some.inj hsmooth)
    exact h
  | ask c next ih =>
    obtain ⟨⟨reply, w₁⟩, hanswer, hrest⟩ := Option.bind_eq_some_iff.1 hsmooth
    have hask : Procedure.ask c next :: w.procedures = [] ++ .ask c next :: w.procedures := rfl
    exact ih reply (h.step (.call next reply hask (answers_of_oblige? hanswer))) hrest

/-- The world after a procedure was begun and carried out. -/
def carriedOut (now : Instant) (p : Procedure Desk Unit) (w : World) : World :=
  (carried? now p w).getD w

theorem reachable_carriedOut {p : Procedure Desk Unit} (h : Reachable w) (hp : Begun p)
    (now : Instant) : Reachable (w.carriedOut now p) := by
  unfold carriedOut
  cases hcarried : carried? now p w with
  | none => exact h
  | some w' => exact reachable_carried? (h.step (.begin p hp)) hcarried

/-- The world after a resource was written anew, unless the version is taken. -/
def rewritten (r : Resource) (version : String) (w : World) : World :=
  if version ∈ w.versions r.key then w
  else w.write r.key { r with status := (w.resources r.key).bind (·.status) } version

theorem reachable_rewritten (h : Reachable w) (r : Resource) (version : String) :
    Reachable (w.rewritten r version) := by
  unfold rewritten
  split
  · exact h
  · rename_i hfresh
    exact h.step (.put r version hfresh)

/-- A resource that was written anew keeps its status, and the manager does not hear of it. -/
theorem exists_rewritten {r : Resource} {version : String} (hfresh : version ∉ w.versions r.key) :
    ∃ r', (w.rewritten r version).resources r.key = some r' ∧ r'.spec = r.spec ∧ r'.key = r.key ∧
      r'.status = (w.resources r.key).bind (·.status) ∧
      (w.rewritten r version).manager = w.manager ∧ (w.rewritten r version).issued = w.issued := by
  rw [rewritten, if_neg hfresh]
  exact ⟨_, if_pos rfl, rfl, rfl, rfl, rfl, rfl⟩

/-- The world after the engine was started and had its first turn at a time. -/
def started (now : Int) (w : World) : World :=
  let e := w.manager.engine.start now
  { w with
    manager := { w.manager with engine := (e.turn now).2 }
    executing := w.executing ++ (e.turn now).1
    executed := w.executed ++ (e.turn now).1 }

theorem reachable_started (h : Reachable w) (now : Int) : Reachable (w.started now) :=
  (h.step (.start now)).step (.turn now)

/-- The world after the first outcome that was awaited is recorded. -/
def reported (now : Instant) (settings : ManagerSettings) (outcome : Except Fault String)
    (w : World) : World :=
  match w.executing with
  | [] => w
  | job :: jobs =>
    (carried? now (record settings job outcome) { w with executing := jobs }).getD w

theorem reachable_reported (h : Reachable w) (now : Instant) (settings : ManagerSettings)
    (outcome : Except Fault String) : Reachable (w.reported now settings outcome) := by
  unfold reported
  split
  · exact h
  · rename_i job jobs hexecuting
    cases hcarried : carried? now (record settings job outcome) { w with executing := jobs } with
    | none => exact h
    | some w' =>
      have hjob : w.executing = [] ++ job :: jobs := hexecuting
      exact reachable_carried? (h.step (.finish job settings outcome hjob)) hcarried

end World

end CronScale
