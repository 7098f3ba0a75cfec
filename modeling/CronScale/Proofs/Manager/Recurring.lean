import CronScale.Proofs.Manager.Attended
import CronScale.Proofs.Manager.Standing
/-!
# Recorded outcomes of recurring jobs

Once an outcome of a recurring job is recorded that is queued as it is declared, its condition stays
the recorded one, word for word, the job stays in queue and agenda, and no reconcile has a reason to
write a status because of it, until another outcome of its name is recorded or its resource is
written or deleted (`World.recorded_stands`). That it is queued as it is declared is needed, and so
is that no reconcile is under way that has read an older declaration: the outcome of a job that was
declared anew in the meantime is wiped out by the next reconcile (`World.outdated_wiped_out`).
-/

namespace CronScale

open CronScale.Calendar

namespace World

variable {w w' : World} {key : OwnerKey} {spec : Spec} {j : JobSpec} {job fresh : Job}
  {c : Condition}

/-- Whether an outcome of the job that is queued for a recurring declaration is recorded in a status
that has adopted target and excluded days. -/
structure Recorded (w : World) (key : OwnerKey) (spec : Spec) (j : JobSpec) (job : Job)
    (c : Condition) : Prop where
  names : (spec.jobs.map JobSpec.name).Nodup
  declared : j ∈ spec.jobs
  unflagged : j.runOnce = false
  recurring : ∃ q, Schedule.parse j.schedule = .ok (.recurring q)
  queued : w.manager.queue.get? job.id = some job
  name : job.name = j.name
  outcome : ∃ result now, c = Record.conditionOf job result now
  told : w.Tells key spec c

/-- What is recorded about a job that is queued as it is declared is what a reconcile expects. -/
theorem Recorded.current {r : Resource} (h : w.Recorded key r.spec j job c) (hw : w.Good)
    (hkey : r.key = key) (hbuild : Job.build r j job.id = .ok fresh)
    (halike : job.differsFrom fresh = false) : fresh.Current key r.spec j c := by
  obtain ⟨q, hschedule⟩ := h.recurring
  obtain ⟨result, now, rfl⟩ := h.outcome
  have hid : fresh.id = job.id := (Reconcile.job_of_build hbuild).1
  have honce : j.isRunOnce = false := by
    simp only [JobSpec.isRunOnce, h.unflagged, hschedule, Schedule.isOneShot, Bool.or_self]
  have hflag : j.isRunOnce = j.runOnce := honce.trans h.unflagged.symm
  exact {
    names := h.names
    declared := h.declared
    named := hid ▸ (hw.queued _ job h.queued).named
    built := by
      intro r' hkey' hspec'
      rw [Reconcile.build_congr (hkey'.trans hkey.symm) hspec', hid]
      exact hbuild
    condition := ⟨h.name, hid.symm, Record.unchanged_of_build hbuild halike hflag result now⟩
    due := by rw [honce, Bool.false_and] }

/-- Once an outcome of a recurring job is recorded that is queued as it is declared, and everything
under way works on the resource as it is, then the outcome abides, whatever happens but a recording
under its name, a write of another specification, a deletion of the resource and a new manager. -/
theorem recorded_stands {r : Resource} (hw : Reachable w) (hresource : w.resources key = some r)
    (h : w.Recorded key r.spec j job c) (hbuild : Job.build r j job.id = .ok fresh)
    (halike : job.differsFrom fresh = false) (hminds : w.Minds key r.spec j fresh c)
    (hrun : Relation.ReflTransGen (Unrecorded key r.spec j.name) w w') :
    w'.Abides key r.spec j job c := by
  have hgood := good_of_reachable hw
  have hjob := h.current hgood (hgood.resources key r hresource).filed hbuild halike
  have hid : fresh.id = job.id := (Reconcile.job_of_build hbuild).1
  have hstands : Stands key r.spec j fresh job c w := ⟨hgood, h.told, hid ▸ h.queued, hminds⟩
  exact (hstands.run hjob halike hrun).abides hjob halike hid.symm

theorem tells_iff : w.Tells key spec c ↔ ((w.resources key).any fun r =>
    decide (r.spec = spec) && r.status.any fun s =>
      !s.globalChange spec && s.conditions.contains c) = true := by
  simp only [Tells, Option.any_eq_true, Bool.and_eq_true, decide_eq_true_eq, Bool.not_eq_true',
    List.contains_iff_mem]
  constructor
  · rintro ⟨r, s, hr, hspec, hs, hadopted, hc⟩
    exact ⟨r, hr, hspec, s, hs, hadopted, hc⟩
  · rintro ⟨r, hr, hspec, s, hs, hadopted, hc⟩
    exact ⟨r, s, hr, hspec, hs, hadopted, hc⟩

instance : Decidable (w.Tells key spec c) := decidable_of_iff _ tells_iff.symm

theorem minds_of_idle (h : w.idle = true) : w.Minds key spec j job c := by
  intro p hp
  rw [done_of_idle h p hp]
  trivial

theorem task_reconcile_ne (k : OwnerKey) : task (reconcile k) ≠ watchDeletions (.deleted key) := by
  intro h
  cases h

/-- A reconcile that is begun and attended to is nothing but routine. -/
theorem unrecorded_attended {answer : Chooser} (hanswer : answer.Right) (key : OwnerKey)
    (spec : Spec) (name : String) (n : Nat) (k : OwnerKey) (w : World) :
    Relation.ReflTransGen (Unrecorded key spec name) w
      (w.attended answer n (task (reconcile k))) :=
  attended_run hanswer (fun _ _ _ _ _ => trivial) (.inl ⟨k, rfl⟩) (task_reconcile_ne k) n w

/-- A larger size a minute after midnight, every day. -/
def daily : JobSpec := ⟨"up", "0 1 0 * * *", false, 5⟩

/-- A still larger one. -/
def larger : JobSpec := { daily with targetSize := 6 }

theorem recurring_daily : ∃ q, Schedule.parse daily.schedule = .ok (.recurring q) := by
  have hrecurring : (Schedule.parse daily.schedule).toOption.any
      (fun schedule => !schedule.isOneShot) = true := by decide +kernel
  obtain ⟨schedule, hparse, hmore⟩ := (Option.any_eq_true _ _).1 hrecurring
  cases schedule with
  | once reading => exact absurd hmore Bool.false_ne_true
  | recurring q => exact ⟨q, eq_ok_of_toOption hparse⟩

theorem daily_stands : ∃ w', Relation.ReflTransGen
    (Unrecorded (shop daily).key (shop daily).spec "up") (ran daily) w' ∧
      w'.Abides (shop daily).key (shop daily).spec daily (firedJob daily) (recorded daily) := by
  have hqueued : (ran daily).manager.queue.get? (firedJob daily).id = some (firedJob daily) := by
    decide +kernel
  have htold : (ran daily).Tells (shop daily).key (shop daily).spec (recorded daily) := by
    decide +kernel
  have hbuild : Job.build (shop daily) daily (firedJob daily).id = .ok (firedJob daily) :=
    eq_ok_of_toOption (by decide +kernel)
  have hidle : (ran daily).idle = true := by decide +kernel
  obtain ⟨r, s, hr, hspec, hrest⟩ := htold
  have hkey : r.key = (shop daily).key :=
    ((good_of_reachable (reachable_ran daily)).resources _ r hr).filed
  have hrecorded : (ran daily).Recorded (shop daily).key r.spec daily (firedJob daily)
      (recorded daily) := by
    rw [hspec]
    exact {
      names := by decide
      declared := List.mem_cons_self
      unflagged := rfl
      recurring := recurring_daily
      queued := hqueued
      name := rfl
      outcome := ⟨_, _, rfl⟩
      told := ⟨r, s, hr, hspec, hrest⟩ }
  have hrun := unrecorded_attended (right_oblige? ⟨90, 0⟩) (shop daily).key r.spec "up" 50
    (shop daily).key (ran daily)
  have habides := recorded_stands (reachable_ran daily) hr hrecorded
    ((Reconcile.build_congr hkey hspec _ _).trans hbuild) (Job.differsFrom_self _)
    (minds_of_idle hidle) hrun
  rw [hspec] at hrun habides
  exact ⟨_, hrun, habides⟩

/-- The world in which a larger size was declared after the first reconcile, and in which the
outcome of what was fired under the old declaration is recorded. -/
def redeclared : World :=
  ((((opened daily).carriedOut ⟨0, 0⟩ (task (reconcile (shop daily).key))).rewritten (shop larger)
    "edited").started (60 * nanosPerSecond)).reported ⟨60, 0⟩ default (.ok "")

theorem reachable_redeclared : Reachable redeclared := by
  have hreconciled :=
    reachable_carriedOut (reachable_opened daily) (.inl ⟨(shop daily).key, rfl⟩) ⟨0, 0⟩
  exact reachable_reported (reachable_started (reachable_rewritten hreconciled _ _) _) _ _ _

/-- The world in which a larger size was declared after the first reconcile, a second reconcile has
read it, the declaration was taken back, and the outcome of what was fired is recorded. -/
def reverted : World :=
  ((((((opened daily).carriedOut ⟨0, 0⟩ (task (reconcile (shop daily).key))).rewritten
    (shop larger) "edited").attended (oblige? ⟨30, 0⟩) 1
    (task (reconcile (shop daily).key))).rewritten (shop daily) "reverted").started
    (60 * nanosPerSecond)).reported ⟨60, 0⟩ default (.ok "")

theorem reachable_reverted : Reachable reverted := by
  have hreconciled :=
    reachable_carriedOut (reachable_opened daily) (.inl ⟨(shop daily).key, rfl⟩) ⟨0, 0⟩
  have hread := reachable_of_run (reachable_rewritten hreconciled (shop larger) "edited")
    (unrecorded_attended (right_oblige? ⟨30, 0⟩) (shop daily).key (shop daily).spec "" 1
      (shop daily).key _)
  exact reachable_reported (reachable_started (reachable_rewritten hread _ _) _) _ _ _

/-- A recorded outcome is wiped out by a reconcile if its job was declared anew in the meantime,
and also if the reconcile under way has read another declaration than the present one. -/
theorem outdated_wiped_out :
    (∃ w', Reachable redeclared ∧
      redeclared.Recorded (shop larger).key (shop larger).spec larger (firedJob daily)
        (recorded daily) ∧
      Relation.ReflTransGen (Unrecorded (shop larger).key (shop larger).spec "up") redeclared w' ∧
      ¬w'.Tells (shop larger).key (shop larger).spec (recorded daily)) ∧
    ∃ w', Reachable reverted ∧
      reverted.Recorded (shop daily).key (shop daily).spec daily (firedJob daily)
        (recorded daily) ∧
      Job.build (shop daily) daily (firedJob daily).id = .ok (firedJob daily) ∧
      Relation.ReflTransGen (Unrecorded (shop daily).key (shop daily).spec "up") reverted w' ∧
      ¬w'.Tells (shop daily).key (shop daily).spec (recorded daily) := by
  constructor
  · refine ⟨redeclared.attended (oblige? ⟨90, 0⟩) 50 (task (reconcile (shop larger).key)),
      reachable_redeclared, ?_, unrecorded_attended (right_oblige? _) _ _ _ _ _ _,
      by decide +kernel⟩
    exact {
      names := by decide
      declared := List.mem_cons_self
      unflagged := rfl
      recurring := recurring_daily
      queued := by decide +kernel
      name := rfl
      outcome := ⟨_, _, rfl⟩
      told := by decide +kernel }
  · refine ⟨(reverted.attend (oblige? ⟨80, 0⟩) 1 7).attended (oblige? ⟨90, 0⟩) 50
      (task (reconcile (shop daily).key)), reachable_reverted, ?_,
      eq_ok_of_toOption (by decide +kernel), ?_, by decide +kernel⟩
    · exact {
        names := by decide
        declared := List.mem_cons_self
        unflagged := rfl
        recurring := recurring_daily
        queued := by decide +kernel
        name := rfl
        outcome := ⟨_, _, rfl⟩
        told := by decide +kernel }
    · have hfirst : Relation.ReflTransGen (Unrecorded (shop daily).key (shop daily).spec "up")
          reverted (reverted.attend (oblige? ⟨80, 0⟩) 1 7) :=
        attend_run (right_oblige? _) (fun _ _ _ _ _ => trivial) 1 7 reverted
      exact hfirst.trans (unrecorded_attended (right_oblige? _) _ _ _ _ _ _)

end World

end CronScale
