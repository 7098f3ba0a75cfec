import CronScale.Proofs.Manager.Reconciled
import CronScale.Proofs.Manager.Trace
/-!
# Jobs that have run

A job that is declared to run once is retired when its outcome is recorded: the next reconcile takes
it out of the queue, no later one puts it back, and its condition stays the recorded one, however
many reconciles there are and whatever happens between them that leaves the declaration and the
condition alone (`World.retired_of_rounds`). A job that runs once only because its schedule names a
date is not: the recorded condition says that it runs once, the declaration does not, and so it is
queued again (`World.dated_queued_again`).
-/

namespace CronScale

open CronScale.Calendar

namespace Record

theorem isTerminal_stateOf (outcome : Except Fault String) :
    (stateOf outcome).isTerminal = true := by
  cases outcome <;> rfl

/-- The condition of an outcome says what is declared, unless the job runs once though that is not
declared. -/
theorem unchanged_of_build {r : Resource} {j : JobSpec} {id : String} {job fresh : Job}
    (hbuild : Job.build r j id = .ok fresh) (hdiffers : job.differsFrom fresh = false)
    (hflag : j.isRunOnce = j.runOnce) (outcome : Except Fault String) (now : Instant) :
    Reconcile.unchanged (conditionOf job outcome now) j = true := by
  simp only [Job.differsFrom, Job.agrees, Bool.or_eq_false_iff, Bool.not_eq_false',
    Bool.and_eq_true, beq_iff_eq, bne_eq_false_iff_eq] at hdiffers
  obtain ⟨⟨⟨⟨⟨_, hschedule⟩, _⟩, hsize⟩, hrunOnce⟩, _⟩ := hdiffers
  have hfresh := Reconcile.declared_of_build hbuild
  simp only [Reconcile.unchanged, conditionOf, hschedule, hsize, hrunOnce, hfresh.1, hfresh.2.1,
    hfresh.2.2, hflag, beq_self_eq_true, Bool.and_self]

theorem unchanged_conditionOf {r : Resource} {j : JobSpec} {id : String} {job fresh : Job}
    (hbuild : Job.build r j id = .ok fresh) (hdiffers : job.differsFrom fresh = false)
    (honce : j.runOnce = true) (outcome : Except Fault String) (now : Instant) :
    Reconcile.unchanged (conditionOf job outcome now) j = true := by
  have hflag : j.isRunOnce = j.runOnce := by simp only [JobSpec.isRunOnce, honce, Bool.true_or]
  exact unchanged_of_build hbuild hdiffers hflag outcome now

end Record

namespace World

variable {w w' : World} {key : OwnerKey} {spec : Spec} {j : JobSpec} {c : Condition}

/-- Whether a resource is stored with a specification and with a status that has adopted it and has
a condition. -/
def Tells (w : World) (key : OwnerKey) (spec : Spec) (c : Condition) : Prop :=
  ∃ r s, w.resources key = some r ∧ r.spec = spec ∧ r.status = some s ∧
    s.globalChange spec = false ∧ c ∈ s.conditions

/-- Whether neither the queue nor the agenda holds a job of a resource with a name. -/
structure Lacks (w : World) (key : OwnerKey) (name : String) : Prop where
  queue : ∀ id job, w.manager.queue.get? id = some job → job.owner = key → job.name ≠ name
  agenda : ∀ id entry, w.manager.engine.agenda.entries.get? id = some entry →
    entry.job.owner = key → entry.job.name ≠ name

theorem lacks_of_queue (h : w.manager.Lockstep) {name : String}
    (hqueue : ∀ id job, w.manager.queue.get? id = some job → job.owner = key → job.name ≠ name) :
    w.Lacks key name :=
  ⟨hqueue, fun id entry hentry => hqueue id entry.job (h.entries id entry hentry).1⟩

/-- What may happen between reconciles: anything that leaves the declaration of a resource, what its
status has adopted and its condition for a name as they are, and queues no job of the name. -/
structure Bypasses (key : OwnerKey) (name : String) (w w' : World) : Prop where
  step : Step w w'
  resource : ∀ r s, w.resources key = some r → r.status = some s →
    ∃ r' s', w'.resources key = some r' ∧ r'.spec = r.spec ∧ r'.status = some s' ∧
      s'.target = s.target ∧ s'.excludeDates = s.excludeDates ∧
        ∀ c ∈ s.conditions, c.name = name → c ∈ s'.conditions
  queue : ∀ id job, w'.manager.queue.get? id = some job → job.owner = key → job.name = name →
    w.manager.queue.get? id = some job

/-- A number of reconciles that succeed, while no other procedure touches the resource or its jobs,
with other things happening between them. -/
inductive Rounds (key : OwnerKey) (name : String) : Nat → World → World → Prop
  | none (w : World) : Rounds key name 0 w w
  | bypass {n : Nat} {w w' w'' : World} : Bypasses key name w w' → Rounds key name n w' w'' →
      Rounds key name n w w''
  | reconcile {n : Nat} {w w' w'' : World} {own : List (World × World)} :
      Exec (Aside key) w (reconcile key) own (.ok ()) w' → Rounds key name n w' w'' →
      Rounds key name (n + 1) w w''

theorem Bypasses.tells (h : Bypasses key c.name w w') (htells : w.Tells key spec c) :
    w'.Tells key spec c := by
  obtain ⟨r, s, hr, hspec, hs, hadopted, hc⟩ := htells
  obtain ⟨r', s', hr', hspec', hs', htarget, hdates, hconditions⟩ := h.resource r s hr hs
  refine ⟨r', s', hr', hspec'.trans hspec, hs', ?_, hconditions c hc rfl⟩
  simp only [Status.globalChange, htarget, hdates]
  exact hadopted

theorem Bypasses.lacks {name : String} (h : Bypasses key name w w') (hw : w.Good)
    (hlacks : w.Lacks key name) : w'.Lacks key name :=
  lacks_of_queue (hw.step h.step).1.lockstep fun id job hjob howner hname =>
    hlacks.queue id job (h.queue id job hjob howner hname) howner hname

/-- A job that is queued under the id in a condition has its name. -/
theorem name_of_condition {t : Option TargetSpec} {job : Job} (hw : w.Good)
    (hc : c.Sound w.issued key t) (hne : c.jobId ≠ "")
    (hjob : w.manager.queue.get? c.jobId = some job) : job.name = c.name :=
  hw.name_of_issued (hc.issued hne) hjob

/-- Whether the status of a resource tells the outcome of a job that is declared to run once and
can be built. -/
structure Outcome (w : World) (key : OwnerKey) (spec : Spec) (j : JobSpec) (c : Condition) :
    Prop where
  tells : w.Tells key spec c
  names : (spec.jobs.map JobSpec.name).Nodup
  declared : j ∈ spec.jobs
  built : ∀ r, r.key = key → r.spec = spec → ∃ job, Job.build r j "" = .ok job
  once : j.isRunOnce = true
  name : c.name = j.name
  unchanged : Reconcile.unchanged c j = true
  terminal : c.state.isTerminal = true

/-- A reconcile that succeeds takes a job whose outcome is told out of the queue, and leaves its
condition. -/
theorem Outcome.reconcile {own : List (World × World)} (h : w.Outcome key spec j c) (hw : w.Good)
    (hexec : Exec (Aside key) w (reconcile key) own (.ok ()) w') :
    w'.Good ∧ w'.Tells key spec c ∧ w'.Lacks key c.name := by
  obtain ⟨r, s, hresource, rfl, hstatus, hadopted, hc⟩ := h.tells
  obtain ⟨⟨hleaves, hadopts⟩, hgood, _⟩ :=
    hexec.ensures hw (keeps_reconcile key w.issued) (ensures_reconcile_adopts hresource h.names)
  obtain ⟨r', s', hr', hspec, hs', hresult⟩ := hleaves rfl
  have hsound := hw.resources key r hresource
  obtain ⟨fresh, hbuild⟩ := h.built r hsound.filed rfl
  have hdistinct := (hsound.status s hstatus).distinct
  rw [hstatus, Option.getD_some] at hresult
  have hretained : c ∈ Reconcile.retained r.spec s :=
    Reconcile.mem_retained h.names h.declared hadopted hc h.name h.unchanged
  have hran : Reconcile.HasRun r.spec s j := ⟨h.once, c, hretained, h.name, h.terminal⟩
  obtain ⟨c', hc', hname', hsettled⟩ := hresult.settled j h.declared
  obtain rfl : c' = c := eq_of_nodup (Reconcile.nodup_retained hdistinct r.spec)
    (hsettled.kept hran fresh hbuild) hretained (hname'.trans h.name.symm)
  refine ⟨hgood, ⟨r', s', hr', hspec, hs', hadopts rfl r' s' hr' hs', hc'⟩,
    lacks_of_queue hgood.lockstep fun id job hjob howner heq => ?_⟩
  -- A job of the name would be queued under an id that the condition names.
  have hview := jobs_view_eq_some.2 ⟨hjob, howner⟩
  obtain ⟨c'', hc'', rfl, hne⟩ := hresult.only id job hview
  have hsame := name_of_condition hgood (hresult.sound c'' hc'') hne hjob
  obtain rfl := eq_of_nodup hresult.distinct hc'' hc' (hsame.symm.trans heq)
  exact absurd ((hsettled.run hran fresh hbuild).symm.trans hview) (Option.some_ne_none job).symm

theorem Outcome.rounds {n : Nat} (h : w.Outcome key spec j c) (hw : w.Good)
    (hrounds : Rounds key c.name n w w') :
    w'.Good ∧ w'.Tells key spec c ∧ (w.Lacks key c.name ∨ 0 < n → w'.Lacks key c.name) := by
  induction hrounds with
  | none w => exact ⟨hw, h.tells, fun hlacks => hlacks.resolve_right (Nat.lt_irrefl 0)⟩
  | bypass hbypass _ ih =>
    obtain ⟨hgood, htells, hlacks⟩ :=
      ih { h with tells := hbypass.tells h.tells } (hw.step hbypass.step).1
    exact ⟨hgood, htells, fun hbefore => hlacks (hbefore.imp_left (hbypass.lacks hw))⟩
  | reconcile hexec _ ih =>
    obtain ⟨hgood, htold, hlacks⟩ := h.reconcile hw hexec
    obtain ⟨hgood', htells, hafter⟩ := ih { h with tells := htold } hgood
    exact ⟨hgood', htells, fun _ => hafter (.inl hlacks)⟩

theorem Tells.eq {c' : Condition} (h : w.Tells key spec c) (h' : w.Tells key spec c') (hw : w.Good)
    (hname : c'.name = c.name) : c' = c := by
  obtain ⟨r, s, hr, _, hs, _, hc⟩ := h
  obtain ⟨r', s', hr', _, hs', _, hc'⟩ := h'
  obtain rfl := Option.some.inj (hr.symm.trans hr')
  obtain rfl := Option.some.inj (hs.symm.trans hs')
  exact eq_of_nodup ((hw.resources key r hr).status s hs).distinct hc' hc hname

/-- When the status has the outcome of a job that is declared to run once, then after any number of
reconciles that succeed, but at least one, there is no job of its name in the queue and in the
agenda, and its condition is still the recorded one. -/
theorem retired_of_rounds {n : Nat} {r : Resource} {s : Status} {job fresh : Job}
    {outcome : Except Fault String} {now : Instant} (hw : Reachable w)
    (hresource : w.resources key = some r) (hnames : (r.spec.jobs.map JobSpec.name).Nodup)
    (hj : j ∈ r.spec.jobs) (honce : j.runOnce = true) (hstatus : r.status = some s)
    (hadopted : s.globalChange r.spec = false) (hname : job.name = j.name)
    (hbuild : Job.build r j job.id = .ok fresh) (hdiffers : job.differsFrom fresh = false)
    (hrecorded : Record.conditionOf job outcome now ∈ s.conditions)
    (hrounds : Rounds key j.name (n + 1) w w') :
    w'.Lacks key j.name ∧ w'.Tells key r.spec (Record.conditionOf job outcome now) ∧
      ∀ c, w'.Tells key r.spec c → c.name = j.name → c = Record.conditionOf job outcome now := by
  have hgood := good_of_reachable hw
  have hfiled := (hgood.resources key r hresource).filed
  have houtcome : w.Outcome key r.spec j (Record.conditionOf job outcome now) := {
    tells := ⟨r, s, hresource, rfl, hstatus, hadopted, hrecorded⟩
    names := hnames
    declared := hj
    built := by
      intro r' hkey hspec
      rw [Reconcile.build_congr (hkey.trans hfiled.symm) hspec]
      exact ⟨_, Reconcile.build_id hbuild ""⟩
    once := by simp only [JobSpec.isRunOnce, honce, Bool.true_or]
    name := hname
    unchanged := Record.unchanged_conditionOf hbuild hdiffers honce outcome now
    terminal := Record.isTerminal_stateOf outcome }
  rw [← hname] at hrounds ⊢
  obtain ⟨hgood', htells, hlacks⟩ := houtcome.rounds hgood hrounds
  exact ⟨hlacks (.inr n.succ_pos), htells, fun c hc heq => htells.eq hc hgood' heq⟩

/-- A resource that asks for one job. -/
def shop (j : JobSpec) : Resource where
  metadata := { name := some "shop", ns := some "default", resourceVersion := some "0" }
  spec :=
    { excludeDates := []
      target := ⟨"apps/v1", "Deployment", "shop"⟩
      jobs := [j] }
  status := none

/-- The world in which it was just written. -/
def opened (j : JobSpec) : World := (new Zone.utc 0).write (shop j).key (shop j) "0"

theorem reachable_opened (j : JobSpec) : Reachable (opened j) :=
  (Reachable.new Zone.utc 0).step (.put (shop j) "0" List.not_mem_nil)

/-- The world in which it was then reconciled at midnight, and in which the outcome of what was
fired a minute later is recorded. -/
def ran (j : JobSpec) : World :=
  (((opened j).carriedOut ⟨0, 0⟩ (task (reconcile (shop j).key))).started
    (60 * nanosPerSecond)).reported ⟨60, 0⟩ default (.ok "")

theorem reachable_ran (j : JobSpec) : Reachable (ran j) := by
  have hreconciled := reachable_carriedOut (reachable_opened j) (.inl ⟨(shop j).key, rfl⟩) ⟨0, 0⟩
  exact reachable_reported (reachable_started hreconciled _) _ _ _

/-- The job that was fired there. -/
def firedJob (j : JobSpec) : Job := ((Job.build (shop j) j j.name).toOption).getD default

/-- The condition with its outcome. -/
def recorded (j : JobSpec) : Condition := Record.conditionOf (firedJob j) (.ok "") ⟨60, 0⟩

/-- Whether the outcome of a job is recorded in a world as it should be. -/
def tellsOutcome (j : JobSpec) (w : World) : Bool :=
  (w.resources (shop j).key).any fun r => decide (r.key = (shop j).key ∧ r.spec = (shop j).spec) &&
    r.status.any fun s => !s.globalChange (shop j).spec && s.conditions.contains (recorded j)

theorem tells_of_tellsOutcome (h : tellsOutcome j w = true) :
    ∃ r s, w.resources (shop j).key = some r ∧ r.key = (shop j).key ∧ r.spec = (shop j).spec ∧
      r.status = some s ∧ s.globalChange (shop j).spec = false ∧ recorded j ∈ s.conditions := by
  obtain ⟨r, hr, hrest⟩ := (Option.any_eq_true _ _).1 h
  obtain ⟨hsame, hstatus⟩ := Bool.and_eq_true_iff.1 hrest
  obtain ⟨s, hs, hrest⟩ := (Option.any_eq_true _ _).1 hstatus
  obtain ⟨hadopted, hc⟩ := Bool.and_eq_true_iff.1 hrest
  obtain ⟨hkey, hspec⟩ := of_decide_eq_true hsame
  exact ⟨r, s, hr, hkey, hspec, hs, by simpa using hadopted, by simpa using hc⟩

/-- A larger size a minute after midnight, once. -/
def afterMidnight : JobSpec := ⟨"up", "0 1 0 * * *", true, 5⟩

theorem afterMidnight_retired : ∃ w',
    Rounds (shop afterMidnight).key "up" 2 (ran afterMidnight) w' ∧
      w'.Lacks (shop afterMidnight).key "up" ∧
      w'.Tells (shop afterMidnight).key (shop afterMidnight).spec (recorded afterMidnight) := by
  have htells : tellsOutcome afterMidnight (ran afterMidnight) = true := by decide +kernel
  have hbuild : Job.build (shop afterMidnight) afterMidnight (firedJob afterMidnight).id =
      .ok (firedJob afterMidnight) := eq_ok_of_toOption (by decide +kernel)
  have hsucceeds : succeeds ⟨90, 0⟩ (reconcile (shop afterMidnight).key) (ran afterMidnight) =
      true := by decide +kernel
  obtain ⟨w₁, hfirst⟩ := smooth?_of_succeeds hsucceeds
  have hsucceeds' : (smooth? ⟨90, 0⟩ (reconcile (shop afterMidnight).key) (ran afterMidnight)).any
      (fun result => succeeds ⟨95, 0⟩ (reconcile (shop afterMidnight).key) result.2) = true := by
    decide +kernel
  rw [hfirst, Option.any_some] at hsucceeds'
  obtain ⟨own, hexec⟩ := exec_of_smooth? (Aside (shop afterMidnight).key) hfirst
  obtain ⟨own', w', hexec'⟩ := exec_of_succeeds (Aside (shop afterMidnight).key) hsucceeds'
  obtain ⟨r, s, hr, hkey, hspec, hs, hadopted, hc⟩ := tells_of_tellsOutcome htells
  have hrounds : Rounds (shop afterMidnight).key afterMidnight.name (1 + 1) (ran afterMidnight)
      w' := .reconcile hexec (.reconcile hexec' (.none w'))
  rw [← hspec] at hadopted
  obtain ⟨hlacks, hw', _⟩ := retired_of_rounds (reachable_ran afterMidnight) hr
    (by rw [hspec]; decide) (by rw [hspec]; exact List.mem_cons_self) rfl hs hadopted rfl
    ((Reconcile.build_congr hkey hspec _ _).trans hbuild) (Job.differsFrom_self _) hc hrounds
  exact ⟨w', hrounds, hlacks, hspec ▸ hw'⟩

/-- A recorded condition that says that a job runs once, though its declaration does not, is gone
after the next reconcile that succeeds, and the job is queued again. -/
theorem dated_queued_again {r : Resource} {s : Status} {fresh : Job} {own : List (World × World)}
    (hw : Reachable w) (hexec : Exec (Aside key) w (reconcile key) own (.ok ()) w')
    (hresource : w.resources key = some r) (hnames : (r.spec.jobs.map JobSpec.name).Nodup)
    (hj : j ∈ r.spec.jobs) (hflag : j.runOnce = false) (hbuild : Job.build r j "" = .ok fresh)
    (hstatus : r.status = some s) (hc : c ∈ s.conditions) (hname : c.name = j.name)
    (honce : c.runOnce = true) : ¬w'.Lacks key j.name ∧ ¬w'.Tells key r.spec c := by
  have hgood := good_of_reachable hw
  obtain ⟨hleaves, hgood', _⟩ :=
    hexec.ensures hgood (keeps_reconcile key w.issued) (ensures_reconcile hresource hnames)
  obtain ⟨r', s', hr', hspec, hs', hresult⟩ := hleaves rfl
  have hsound := hgood.resources key r hresource
  rw [hstatus, Option.getD_some] at hresult
  have hchanged : Reconcile.unchanged c j ≠ true := by
    simp [Reconcile.unchanged, hflag, honce]
  have hran : ¬Reconcile.HasRun r.spec s j := by
    rintro ⟨_, c', hc', hname', _⟩
    have hmem : c' ∈ s.conditions := by
      unfold Reconcile.retained at hc'
      split at hc'
      · exact absurd hc' List.not_mem_nil
      · exact (List.mem_filter.1 hc').1
    obtain rfl := eq_of_nodup (hsound.status s hstatus).distinct hmem hc (hname'.trans hname.symm)
    exact hchanged (Reconcile.unchanged_of_mem_retained hnames hj hc' hname')
  obtain ⟨c', hc', hname', hsettled⟩ := hresult.settled j hj
  constructor
  · intro hlacks
    obtain ⟨queued, hjob, _⟩ := hsettled.queued hran fresh hbuild
    obtain ⟨hqueued, howner⟩ := jobs_view_eq_some.1 hjob
    have hsound' := hresult.sound c' hc'
    have hne := Reconcile.named_of_build hbuild hsound' hname' hsettled.declared
    have hsame := name_of_condition hgood' hsound' hne hqueued
    exact hlacks.queue _ queued hqueued howner (hsame.trans hname')
  · rintro ⟨r₁, s₁, hr₁, _, hs₁, _, hc₁⟩
    obtain rfl := Option.some.inj (hr'.symm.trans hr₁)
    obtain rfl := Option.some.inj (hs'.symm.trans hs₁)
    obtain rfl := eq_of_nodup hresult.distinct hc' hc₁ (hname'.trans hname.symm)
    exact hchanged hsettled.declared

/-- A larger size at a date. -/
def opening : JobSpec := ⟨"up", "@date 1970-01-01 00:01:00", false, 5⟩

/-- It runs once and its outcome is recorded; after the next reconcile it is queued again, and the
recorded condition is gone. -/
theorem opening_queued_again : opening.isRunOnce = true ∧ Reachable (ran opening) ∧
    (∃ r s, (ran opening).resources (shop opening).key = some r ∧ r.spec = (shop opening).spec ∧
      r.status = some s ∧ s.globalChange r.spec = false ∧ recorded opening ∈ s.conditions) ∧
    ∃ w', Rounds (shop opening).key "up" 1 (ran opening) w' ∧ ¬w'.Lacks (shop opening).key "up" ∧
      ¬w'.Tells (shop opening).key (shop opening).spec (recorded opening) := by
  have honce : opening.isRunOnce = true := by decide +kernel
  have htells : tellsOutcome opening (ran opening) = true := by decide +kernel
  have hbuild : (Job.build (shop opening) opening "").toOption.isSome = true := by decide +kernel
  have hsucceeds : succeeds ⟨90, 0⟩ (reconcile (shop opening).key) (ran opening) = true := by
    decide +kernel
  have hflagged : (recorded opening).name = "up" ∧ (recorded opening).runOnce = true := by
    decide +kernel
  obtain ⟨fresh, hfresh⟩ := Option.isSome_iff_exists.1 hbuild
  obtain ⟨own, w', hexec⟩ := exec_of_succeeds (Aside (shop opening).key) hsucceeds
  obtain ⟨r, s, hr, hkey, hspec, hs, hadopted, hc⟩ := tells_of_tellsOutcome htells
  have hagain := dated_queued_again (reachable_ran opening) hexec hr
    (by rw [hspec]; decide) (by rw [hspec]; exact List.mem_cons_self) rfl
    ((Reconcile.build_congr hkey hspec _ _).trans (eq_ok_of_toOption hfresh)) hs hc hflagged.1
    hflagged.2
  rw [hspec] at hagain
  exact ⟨honce, reachable_ran opening, ⟨r, s, hr, hspec, hs, hspec ▸ hadopted, hc⟩, w',
    .reconcile hexec (.none w'), hagain⟩

end World

end CronScale
