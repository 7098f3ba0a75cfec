import CronScale.Proofs.Engine.Run
/-!
# Jobs exchanged for others

Of a job the engine looks at its id, its schedule and whether it runs once, and at nothing else. So
a map between jobs that keeps these three may be applied before a run or after it: the same happens
at the same times, only to the jobs that the map gives (`Engine.Timed.run?_map`).
-/

namespace CronScale

open CronScale.Calendar

namespace Table

variable {κ υ ω : Type} {f : υ → ω}

theorem eq_of_rows {t u : Table κ υ} (h : t.rows = u.rows) : t = u := by
  cases t
  cases u
  cases h
  rfl

theorem rows_map (t : Table κ υ) : (t.map f).rows = t.rows.map fun r => (r.1, f r.2) := rfl

theorem values_of_map (t : Table κ υ) : (t.map f).values = t.values.map f := by
  simp only [values, rows_map, List.map_map, Function.comp_def]

theorem keys_of_map (t : Table κ υ) : (t.map f).keys = t.keys := by
  simp only [keys, rows_map, List.map_map, Function.comp_def]

variable [DecidableEq κ]

theorem contains_map (t : Table κ υ) (k : κ) : (t.map f).contains k = t.contains k := by
  rw [contains, contains, get?_map, Option.isSome_map]

theorem erase_map (t : Table κ υ) (k : κ) : (t.map f).erase k = (t.erase k).map f := by
  apply eq_of_rows
  simp only [erase, filter, rows_map, List.filter_map, Function.comp_def]

theorem replaceRow_map (k : κ) (v : υ) (rows : List (κ × υ)) :
    replaceRow k (f v) (rows.map fun r => (r.1, f r.2)) =
      (replaceRow k v rows).map fun r => (r.1, f r.2) := by
  simp only [replaceRow, List.map_map]
  refine List.map_congr_left fun r _ => ?_
  simp only [Function.comp_apply]
  split <;> rfl

theorem insert_map (t : Table κ υ) (k : κ) (v : υ) :
    (t.map f).insert k (f v) = (t.insert k v).map f := by
  apply eq_of_rows
  by_cases hk : k ∈ t.keys
  · have hk' : k ∈ (t.map f).keys := (keys_of_map t).symm ▸ hk
    rw [insert, dif_pos (show k ∈ (t.map f).rows.map Prod.fst from hk'), insert,
      dif_pos (show k ∈ t.rows.map Prod.fst from hk)]
    exact replaceRow_map k v t.rows
  · have hk' : k ∉ (t.map f).keys := (keys_of_map t).symm ▸ hk
    rw [insert, dif_neg (show k ∉ (t.map f).rows.map Prod.fst from hk'), insert,
      dif_neg (show k ∉ t.rows.map Prod.fst from hk)]
    simp only [rows_map, List.map_append, List.map_cons, List.map_nil]

end Table

variable {J K : Type}

/-- Whether a map between jobs keeps what the engine looks at. -/
structure Schedulable.Keeps [Schedulable J] [Schedulable K] (f : J → K) : Prop where
  id : ∀ j, Schedulable.id (f j) = Schedulable.id j
  schedule : ∀ j, Schedulable.schedule (f j) = Schedulable.schedule j
  runOnce : ∀ j, Schedulable.runOnce (f j) = Schedulable.runOnce j

def Entry.map (f : J → K) (e : Entry J) : Entry K := ⟨f e.job, e.expr, e.schedule, e.prev, e.next⟩

namespace Agenda

def map (f : J → K) (a : Agenda J) : Agenda K := ⟨a.zone, a.staleness, a.entries.map (Entry.map f)⟩

variable {f : J → K}

theorem earliest?_map (a : Agenda J) : (a.map f).earliest? = a.earliest? := by
  simp only [earliest?, map, Table.values_of_map, List.filterMap_map]
  rfl

theorem remove_map (a : Agenda J) (id : String) : (a.map f).remove id = (a.remove id).map f := by
  simp only [remove, map, Table.erase_map]

variable [Schedulable J] [Schedulable K]

theorem add_map (hf : Schedulable.Keeps f) (a : Agenda J) (now : Instant) (expr : String)
    (job : J) : (a.map f).add now expr (f job) = (a.add now expr job).map (map f) := by
  unfold add
  cases Schedule.parse expr with
  | error e => rfl
  | ok s =>
    simp only [Except.map, map, hf.id, ← Table.insert_map]
    rfl

theorem fired_map (hf : Schedulable.Keeps f) (zone : Zone) (now : Instant) (e : Entry J) :
    fired zone now (e.map f) = (fired zone now e).map f := by
  simp only [fired, Entry.map, hf.runOnce]

theorem dispatch_map (hf : Schedulable.Keeps f) (a : Agenda J) (now : Instant) :
    (a.map f).dispatch now = ((a.dispatch now).1.map f, (a.dispatch now).2.map f) := by
  have hdue : ∀ e : Entry J, isDue now (e.map f) = isDue now e := fun _ => rfl
  have hentries : (a.entries.map (Entry.map f)).map
      (fun e => if isDue now e then fired a.zone now e else e) =
      (a.entries.map fun e => if isDue now e then fired a.zone now e else e).map (Entry.map f) := by
    apply Table.eq_of_rows
    simp only [Table.rows_map, List.map_map, Function.comp_def, hdue, fired_map hf]
    refine List.map_congr_left fun r _ => ?_
    split <;> rfl
  simp only [dispatch, map, hentries, Table.values_of_map, List.filter_map, List.map_map,
    Function.comp_def, hdue]
  rfl

end Agenda

namespace Engine

def map (f : J → K) (e : Engine J) : Engine K := ⟨e.agenda.map f, e.loop, e.woken⟩

def Event.map (f : J → K) : Event J → Event K
  | .add expr job => .add expr (f job)
  | .update job => .update (f job)
  | .remove id => .remove id
  | .turn => .turn
  | .pass time => .pass time

def Turn.map (f : J → K) (τ : Turn J) : Turn K := ⟨τ.time, τ.fired.map f⟩

def Timed.map (f : J → K) (w : Timed J) : Timed K := ⟨w.now, w.engine.map f⟩

variable {f : J → K}

/-- A call is refused before the map if it is after it. -/
theorem Timed.change_map (w : Timed J) {e : Except Schedule.ParseError (Engine J)}
    {e' : Except Schedule.ParseError (Engine K)} (he : e' = e.map (Engine.map f)) :
    (w.map f).change e' = (w.change e).map f := by
  subst he
  cases e <;> rfl

theorem remove_map (e : Engine J) (id : String) : (e.map f).remove id = (e.remove id).map f := by
  have hpresent : (e.map f).agenda.entries.contains id = e.agenda.entries.contains id :=
    Table.contains_map _ id
  simp only [remove, hpresent]
  split
  · simp only [map, Agenda.remove_map]
  · rfl

variable [Schedulable J] [Schedulable K]

theorem add_map (hf : Schedulable.Keeps f) (e : Engine J) (now : Instant) (expr : String)
    (job : J) : (e.map f).add now expr (f job) = (e.add now expr job).map (map f) := by
  simp only [add, map, Agenda.add_map hf]
  cases e.agenda.add now expr job <;> rfl

theorem update_map (hf : Schedulable.Keeps f) (e : Engine J) (now : Instant) (job : J) :
    (e.map f).update now (f job) = (e.update now job).map (map f) := by
  rw [update, update, hf.schedule, add_map hf]

theorem dispatch_map (hf : Schedulable.Keeps f) (e : Engine J) (now : Int) :
    (e.map f).dispatch now = ((e.dispatch now).1.map f, (e.dispatch now).2.map f) := by
  simp only [dispatch, map, Agenda.dispatch_map hf, Agenda.earliest?_map]

theorem turn_map (hf : Schedulable.Keeps f) (e : Engine J) (now : Int) :
    (e.map f).turn now = ((e.turn now).1.map f, (e.turn now).2.map f) := by
  have hloop : (e.map f).loop = e.loop := rfl
  have hwoken : (e.map f).woken = e.woken := rfl
  rw [turn, turn, hloop]
  cases e.loop with
  | stopped => rfl
  | sleeping deadline =>
    simp only [hwoken]
    split
    · exact dispatch_map hf e now
    · rfl

namespace Timed

theorem step?_map (hf : Schedulable.Keeps f) (w : Timed J) (ev : Event J) :
    (w.map f).step? (ev.map f) =
      (w.step? ev).map fun r => (r.1.map f, r.2.map (Turn.map f)) := by
  cases ev with
  | add expr job =>
    exact congrArg (fun w => some (w, [])) (change_map w (add_map hf w.engine w.instant expr job))
  | update job =>
    exact congrArg (fun w => some (w, [])) (change_map w (update_map hf w.engine w.instant job))
  | remove id => simp only [step?, Event.map, map, remove_map, Option.map_some, List.map_nil]
  | turn =>
    simp only [step?, Event.map, map, turn_map hf, Option.map_some, List.map_cons, List.map_nil]
    rfl
  | pass time =>
    have hsleep : (w.map f).engine.sleepsUntil time = w.engine.sleepsUntil time := rfl
    have hnow : (w.map f).now = w.now := rfl
    simp only [step?, Event.map, hsleep, hnow]
    split <;> rfl

/-- What happens in a run does not depend on the jobs beyond what the map keeps. -/
theorem run?_map (hf : Schedulable.Keeps f) (evs : List (Event J)) (w : Timed J) :
    run? (evs.map (Event.map f)) (w.map f) =
      (run? evs w).map fun r => (r.1.map f, r.2.map (Turn.map f)) := by
  induction evs generalizing w with
  | nil => rfl
  | cons ev evs ih =>
    rw [List.map_cons, run?, run?, step?_map hf]
    cases w.step? ev with
    | none => rfl
    | some first =>
      simp only [Option.map_some, Option.bind_some, bind, ih]
      cases run? evs first.1 with
      | none => rfl
      | some rest => simp only [Option.map_some, Option.bind_some, pure, List.map_append]

end Timed

end Engine

end CronScale
