import CronScale.Proofs.Manager.Recurring
/-!
# Jobs that take the place of others

When target or excluded days have changed, a reconcile drops all jobs of a resource and queues each
of them anew, those included that run once and have run already. Such a job stays in queue and
agenda under its id until an outcome is recorded under its name (`World.replacement_abides`). The
outcome need not be its own: a job that was dropped may be carried out still, and when its outcome
is recorded late, the condition of the job that took its place is replaced by one with the old id,
and the next reconcile drops that job too, which has not run (`World.replacement_dropped`).
-/

namespace CronScale

open CronScale.Calendar

namespace World

variable {w w' : World} {key : OwnerKey} {r : Resource} {j : JobSpec} {fresh : Job}

/-- A reconcile that succeeds leaves a job that has not run queued as it is declared. -/
theorem queued_of_reconcile {own : List (World × World)} (hw : w.Good)
    (hexec : Exec (Aside key) w (reconcile key) own (.ok ()) w')
    (hresource : w.resources key = some r) (hnames : (r.spec.jobs.map JobSpec.name).Nodup)
    (hj : j ∈ r.spec.jobs) (hbuild : Job.build r j "" = .ok fresh)
    (hran : ¬Reconcile.HasRun r.spec (r.status.getD .initial) j) :
    ∃ c queued, w'.Good ∧ w'.Tells key r.spec c ∧
      Job.Current { fresh with id := c.jobId } key r.spec j c ∧
      w'.manager.queue.get? c.jobId = some queued ∧
      queued.differsFrom { fresh with id := c.jobId } = false := by
  obtain ⟨c, heffected⟩ := effected_of_reconcile hw hexec hresource hnames hj hbuild
  have hfiled := (hw.resources key r hresource).filed
  obtain ⟨queued, hqueued, halike⟩ := heffected.settled.queued hran fresh hbuild
  have hdue : ¬(j.isRunOnce = true ∧ c.state.isTerminal = true) :=
    fun h => hran ((heffected.settled.ran fresh hbuild).2 h)
  refine ⟨c, queued, heffected.good, heffected.told, ?_, (jobs_view_eq_some.1 hqueued).1, halike⟩
  exact {
    names := hnames
    declared := hj
    named := heffected.named
    built := by
      intro r' hkey hspec
      rw [Reconcile.build_congr (hkey.trans hfiled.symm) hspec]
      exact Reconcile.build_id hbuild c.jobId
    condition := heffected.names
    due := by rwa [← Bool.not_eq_true, Bool.and_eq_true] }

/-- After a change of target or excluded days no job has run. -/
theorem not_hasRun_of_globalChange {spec : Spec} {s : Status} (h : s.globalChange spec = true) :
    ¬Reconcile.HasRun spec s j := by
  rintro ⟨_, c, hc, _⟩
  rw [Reconcile.retained, if_pos h] at hc
  exact List.not_mem_nil hc

/-- When a reconcile has queued a job that runs once anew, because target or excluded days have
changed, then its condition abides, and the job is queued and scheduled as it is declared, whatever
happens but a recording under its name, a write of another specification, a deletion of the
resource and a new manager, unless what is under way at that moment disturbs it. -/
theorem replacement_abides {own : List (World × World)} (hw : Reachable w)
    (hexec : Exec (Aside key) w (reconcile key) own (.ok ()) w')
    (hresource : w.resources key = some r) (hnames : (r.spec.jobs.map JobSpec.name).Nodup)
    (hj : j ∈ r.spec.jobs) (honce : j.isRunOnce = true) (hbuild : Job.build r j "" = .ok fresh)
    (hchange : (r.status.getD .initial).globalChange r.spec = true) :
    ∃ c job, w'.Tells key r.spec c ∧ c.name = j.name ∧ c.state.isTerminal = false ∧
      job.id = c.jobId ∧ job.differsFrom { fresh with id := c.jobId } = false ∧
      w'.manager.queue.get? c.jobId = some job ∧
      (w'.Minds key r.spec j { fresh with id := c.jobId } c → ∀ w'',
        Relation.ReflTransGen (Unrecorded key r.spec j.name) w' w'' →
          w''.Abides key r.spec j job c) := by
  have hgood := good_of_reachable hw
  obtain ⟨c, job, hgood', htold, hjob, hqueued, halike⟩ := queued_of_reconcile hgood hexec hresource
    hnames hj hbuild (not_hasRun_of_globalChange hchange)
  have hid : job.id = c.jobId := hgood'.lockstep.keyed _ job hqueued
  have hstate : c.state.isTerminal = false := by
    have hdue := hjob.due
    rwa [honce, Bool.true_and] at hdue
  refine ⟨c, job, htold, hjob.condition.name, hstate, hid, halike, hqueued,
    fun hminds w'' hrun => ?_⟩
  have hstands : Stands key r.spec j { fresh with id := c.jobId } job c w' :=
    ⟨hgood', htold, hqueued, hminds⟩
  exact (hstands.run hjob halike hrun).abides hjob halike hid

/-- The resource with another target. -/
def relocated (j : JobSpec) : Resource :=
  { shop j with spec := { (shop j).spec with target := ⟨"apps/v1", "Deployment", "stall"⟩ } }

/-- The world in which the job was fired and is being carried out when the target is changed. -/
def superseding : World :=
  (((opened afterMidnight).carriedOut ⟨0, 0⟩ (task (reconcile (shop afterMidnight).key))).started
    (60 * nanosPerSecond)).rewritten (relocated afterMidnight) "moved"

theorem reachable_superseding : Reachable superseding := by
  have hreconciled := reachable_carriedOut (reachable_opened afterMidnight)
    (.inl ⟨(shop afterMidnight).key, rfl⟩) ⟨0, 0⟩
  exact reachable_rewritten (reachable_started hreconciled _) _ _

/-- The world in which the job was then queued anew under another id. -/
def superseded : World :=
  ((follow? (obligeAs? "up-2" ⟨61, 0⟩) (reconcile (shop afterMidnight).key) superseding).map
    Prod.snd).getD superseding

theorem exec_superseding (between : World → World → Prop) : ∃ own,
    Exec between superseding (reconcile (shop afterMidnight).key) own (.ok ()) superseded := by
  have hsucceeds : (follow? (obligeAs? "up-2" ⟨61, 0⟩) (reconcile (shop afterMidnight).key)
      superseding).any (fun result => result.1.toOption.isSome) = true := by decide +kernel
  obtain ⟨⟨result, w'⟩, hfollow, hok⟩ := (Option.any_eq_true _ _).1 hsucceeds
  obtain ⟨u, hu⟩ := Option.isSome_iff_exists.1 hok
  obtain rfl : result = .ok u := eq_ok_of_toOption hu
  obtain rfl : superseded = w' := by rw [superseded, hfollow, Option.map_some, Option.getD_some]
  exact exec_of_follow? (right_obligeAs? _ _) between hfollow

theorem relocated_stored : ∃ r, superseding.resources (shop afterMidnight).key = some r ∧
    r.key = (relocated afterMidnight).key ∧ r.spec = (relocated afterMidnight).spec ∧
      (r.status.getD .initial).globalChange r.spec = true := by
  have hstored : (superseding.resources (shop afterMidnight).key).any (fun r =>
      decide (r.key = (relocated afterMidnight).key ∧ r.spec = (relocated afterMidnight).spec ∧
        (r.status.getD .initial).globalChange r.spec = true)) = true := by decide +kernel
  obtain ⟨r, hr, hrest⟩ := (Option.any_eq_true _ _).1 hstored
  exact ⟨r, hr, of_decide_eq_true hrest⟩

theorem superseded_abides : ∃ c job w',
    job.id = "up-2" ∧ superseded.manager.queue.get? "up-2" = some job ∧
      Relation.ReflTransGen
        (Unrecorded (shop afterMidnight).key (relocated afterMidnight).spec "up") superseded w' ∧
      w'.Abides (shop afterMidnight).key (relocated afterMidnight).spec afterMidnight job c := by
  have hbuild : (Job.build (relocated afterMidnight) afterMidnight "").toOption.isSome = true := by
    decide +kernel
  have hidle : superseded.idle = true := by decide +kernel
  have hids : superseded.manager.queue.values.all (fun job => decide (job.id = "up-2")) = true := by
    decide +kernel
  have honce : afterMidnight.isRunOnce = true := by decide +kernel
  obtain ⟨fresh, hfresh⟩ := Option.isSome_iff_exists.1 hbuild
  obtain ⟨r, hr, hkey, hspec, hchange⟩ := relocated_stored
  obtain ⟨own, hexec⟩ := exec_superseding (Aside (shop afterMidnight).key)
  obtain ⟨c, job, _, _, _, hid, _, hqueued, habides⟩ := replacement_abides
    reachable_superseding hexec hr (by rw [hspec]; decide) (by rw [hspec]; exact List.mem_cons_self)
    honce ((Reconcile.build_congr hkey hspec _ _).trans (eq_ok_of_toOption hfresh)) hchange
  have hname : job.id = "up-2" :=
    of_decide_eq_true (List.all_eq_true.1 hids job (Table.mem_values.2 ⟨_, hqueued⟩))
  have hrun := unrecorded_attended (right_oblige? ⟨70, 0⟩) (shop afterMidnight).key r.spec "up" 50
    (shop afterMidnight).key superseded
  have hend := habides (minds_of_idle hidle) _ hrun
  rw [← hid, hname] at hqueued
  rw [hspec] at hrun hend
  exact ⟨c, job, _, hname, hqueued, hrun, hend⟩

/-- The late outcome of the job that was dropped makes the next reconcile drop the job that took its
place, though nothing was recorded about that one. -/
theorem replacement_dropped : ∃ own w', Reachable superseding ∧
    Exec (Aside (shop afterMidnight).key) superseding (reconcile (shop afterMidnight).key) own
      (.ok ()) superseded ∧
    (∃ r, superseding.resources (shop afterMidnight).key = some r ∧
      (r.status.getD .initial).globalChange r.spec = true) ∧
    superseded.manager.queue.contains "up-2" = true ∧
    Relation.ReflTransGen (Amidst (Happening.Routine (shop afterMidnight).key
      (relocated afterMidnight).spec fun job => job.id = "up-2")) superseded w' ∧
    w'.manager.queue.contains "up-2" = false := by
  have hothers : superseded.executing.all (fun job => !decide (job.id = "up-2")) = true := by
    decide +kernel
  obtain ⟨r, hr, _, _, hchange⟩ := relocated_stored
  obtain ⟨own, hexec⟩ := exec_superseding (Aside (shop afterMidnight).key)
  have harrived : Relation.ReflTransGen (Amidst (Happening.Routine (shop afterMidnight).key
      (relocated afterMidnight).spec fun job => job.id = "up-2")) superseded
      (superseded.arrived default (.ok "")) := by
    refine arrived_run (fun job hjob => ?_) _ _
    have hother := List.all_eq_true.1 hothers job hjob
    rw [Bool.not_eq_true', decide_eq_false_iff_not] at hother
    exact hother
  have hrecorded := harrived.trans
    (attend_run (right_oblige? ⟨65, 0⟩) (fun _ _ _ _ _ => trivial) 0 50 _)
  have hreconciled := hrecorded.trans (attended_run (right_oblige? ⟨70, 0⟩)
    (fun _ _ _ _ _ => trivial) (.inl ⟨(shop afterMidnight).key, rfl⟩) (task_reconcile_ne _) 50 _)
  exact ⟨own, _, reachable_superseding, hexec, ⟨r, hr, hchange⟩, by decide +kernel, hreconciled,
    by decide +kernel⟩

end World

end CronScale
