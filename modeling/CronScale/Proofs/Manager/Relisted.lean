import CronScale.Proofs.Manager.Turns
/-!
# Excluded days that are listed otherwise

The status takes the excluded days for a set: if they are listed in another order, or some of them
more often, nothing counts as changed (`Status.globalChange_of_sameTexts`). A queued job holds them
as a list, and differs from a job with another list. So a reconcile that comes after such an edit
retains every condition and drops nothing, and yet brings every live job in anew, as if it had never
fired (`World.relisted_brought_in`). Only what has run, or cannot be built, is left alone.
-/

namespace CronScale

open CronScale.Calendar

theorem sameTexts_iff {as bs : List String} : sameTexts as bs = true ↔ ∀ t, t ∈ as ↔ t ∈ bs := by
  simp only [sameTexts, Bool.and_eq_true, List.all_eq_true, List.contains_iff_mem]
  exact ⟨fun h t => ⟨h.1 t, h.2 t⟩, fun h => ⟨fun t => (h t).1, fun t => (h t).2⟩⟩

theorem Status.globalChange_eq_false {s : Status} {spec : Spec} : s.globalChange spec = false ↔
    s.target = some spec.target ∧ sameTexts s.excludeDates spec.excludeDates = true := by
  unfold globalChange
  cases s.target with
  | none => simp
  | some t => simp

/-- It is no change if the excluded days are listed otherwise. -/
theorem Status.globalChange_of_sameTexts {s : Status} {spec spec' : Spec}
    (htarget : spec'.target = spec.target)
    (hdates : sameTexts spec.excludeDates spec'.excludeDates = true)
    (h : s.globalChange spec = false) : s.globalChange spec' = false := by
  obtain ⟨hadopted, hlisted⟩ := globalChange_eq_false.1 h
  refine globalChange_eq_false.2 ⟨htarget ▸ hadopted, sameTexts_iff.2 fun t => ?_⟩
  exact (sameTexts_iff.1 hlisted t).trans (sameTexts_iff.1 hdates t)

namespace Job

/-- What is built from a declaration takes over the list of excluded days, and nothing else depends
on it. -/
theorem build_of_dates {r r' : Resource} (hkey : r'.key = r.key)
    (htarget : r'.spec.target = r.spec.target) (j : JobSpec) (id : String) :
    build r' j id =
      (build r j id).map fun job => { job with excludeDates := r'.spec.excludeDates } := by
  unfold build targetOf
  rw [hkey, htarget]
  split
  · rfl
  · split
    · rfl
    · split
      · rfl
      · rfl

theorem excludeDates_of_build {r : Resource} {j : JobSpec} {id : String} {job : Job}
    (h : build r j id = .ok job) : job.excludeDates = r.spec.excludeDates := by
  unfold build at h
  split at h
  · cases h
  · split at h
    · cases h
    · split at h
      · cases h
      · cases h
        rfl

/-- Of two jobs that differ in nothing else, the lists of excluded days decide. -/
theorem differsFrom_dates {queued job : Job} (h : queued.differsFrom job = false)
    (dates : List String) :
    queued.differsFrom { job with excludeDates := dates } = true ↔ dates ≠ job.excludeDates := by
  simp only [differsFrom, agrees, Bool.or_eq_false_iff, bne_eq_false_iff_eq] at h
  obtain ⟨⟨⟨hagrees, hsize⟩, honce⟩, hdates⟩ := h
  simp only [differsFrom, agrees, hagrees, hsize, honce, hdates, bne_self_eq_false, Bool.false_or,
    bne_iff_ne]
  exact ne_comm

end Job

namespace Reconcile

/-- Whether a declared job is to be queued, given its condition: it can be built, and it has not run
for the only time. -/
def Live (r : Resource) (j : JobSpec) (c : Condition) : Prop :=
  (∃ job, Job.build r j "" = .ok job) ∧ ¬(j.isRunOnce = true ∧ c.state.isTerminal = true)

/-- Whether a condition holds of a declared job: it tells what stands against building the job, and
while the job is live it is queued as declared. -/
structure Holds (m : Manager) (r : Resource) (j : JobSpec) (c : Condition) : Prop where
  refused : ∀ e, Job.build r j "" = .error e →
    c.state = .failed ∧ c.message = buildFailure j.name e
  queued : Live r j c → ∃ queued job, m.queue.get? c.jobId = some queued ∧
    Job.build r j c.jobId = .ok job ∧ queued.differsFrom job = false

/-- Whether a resource says the same as another one, up to how its excluded days are listed. -/
structure Restates (r r' : Resource) : Prop where
  key : r'.key = r.key
  target : r'.spec.target = r.spec.target
  jobs : r'.spec.jobs = r.spec.jobs
  dates : sameTexts r.spec.excludeDates r'.spec.excludeDates = true

variable {m m' : Manager} {r r' : Resource} {j : JobSpec} {c : Condition}

theorem not_live_of_error {e : Fault} (hbuild : Job.build r j "" = .error e) : ¬Live r j c := by
  rintro ⟨⟨job, hbuild'⟩, _⟩
  exact absurd (hbuild.symm.trans hbuild') (by simp)

theorem Holds.sameAt (h : Holds m r j c) (hsame : m.SameAt m' c.jobId) : Holds m' r j c :=
  ⟨h.refused, fun hlive => hsame.1 ▸ h.queued hlive⟩

theorem Restates.build (h : Restates r r') {id : String} {job : Job}
    (hbuild : Job.build r j id = .ok job) :
    Job.build r' j id = .ok { job with excludeDates := r'.spec.excludeDates } := by
  rw [Job.build_of_dates h.key h.target, hbuild]
  rfl

theorem Restates.live (h : Restates r r') : Live r' j c ↔ Live r j c := by
  refine and_congr_left' ?_
  rw [Job.build_of_dates h.key h.target]
  cases Job.build r j "" with
  | error e => simp [Except.map]
  | ok job => simp [Except.map]

/-- If the job is not live, its condition still holds when the excluded days are listed
otherwise. -/
theorem Holds.restates (h : Holds m r j c) (hrestates : Restates r r')
    (hdates : Live r j c → r'.spec.excludeDates = r.spec.excludeDates) : Holds m r' j c where
  refused := by
    intro e hbuild
    rw [Job.build_of_dates hrestates.key hrestates.target] at hbuild
    cases hformer : Job.build r j "" with
    | error e' =>
      rw [hformer] at hbuild
      exact Except.error.inj hbuild ▸ h.refused e' hformer
    | ok job =>
      rw [hformer] at hbuild
      exact absurd hbuild (by simp [Except.map])
  queued := by
    intro hlive
    have hlive := hrestates.live.1 hlive
    rw [build_of_common hrestates.key hrestates.target (hdates hlive)]
    exact h.queued hlive

/-! ### The turn of a job that has a condition -/

variable {now : Instant} {key : OwnerKey} {left : List Condition} {js : List JobSpec}
  {g g' : Stage}

/-- The turn of a job of which its condition holds leaves the draft as it is. If the job is live,
all is left as it is; otherwise nothing is queued under its id in the end. -/
theorem atOnce_settleJob_of_holds (hgood : g.world.Good)
    (hsound : c.Sound g.world.issued r.key (some r.spec.target))
    (hfind : left.find? (·.name == j.name) = some c) (hdeclared : unchanged c j = true)
    (h : Holds g.world.manager r j c)
    (hturn : (settleJob key r left j g.draft).AtOnce now g.world g'.world g'.draft) :
    g'.draft = g.draft ∧ (Live r j c → g'.world = g.world) ∧
      (¬Live r j c → g'.world.manager.queue.get? c.jobId = none ∧
        g'.world.manager.engine.agenda.entries.get? c.jobId = none) := by
  have hname := (find?_eq_some_name hfind).2
  rw [atOnce_settleJob, hfind] at hturn
  cases hbuild : Job.build r j "" with
  | error e =>
    obtain ⟨hstate, hmessage⟩ := h.refused e hbuild
    have hid : c.jobId = "" :=
      Decidable.byContradiction fun hne => hsound.notFailure hne e (hname ▸ hmessage)
    rw [hbuild] at hturn
    obtain ⟨hworld, hdraft⟩ := hturn
    simp only [refuse, Option.any_some, hstate, hmessage, beq_self_eq_true, Bool.and_self,
      if_true] at hdraft
    refine ⟨hdraft, fun hlive => absurd hlive (not_live_of_error hbuild), fun _ => ?_⟩
    rw [hworld, hid]
    exact hgood.absent_of_fresh hgood.unnamed
  | ok job =>
    have hnamed := named_of_build hbuild hsound hname hdeclared
    simp only [hbuild, Option.filter_some, bne_iff_ne.2 hnamed, if_true, settleKept] at hturn
    by_cases hran : j.isRunOnce = true ∧ c.state.isTerminal = true
    · rw [if_pos (by simpa using hran)] at hturn
      obtain ⟨hworld, hdraft⟩ := Procedure.atOnce_manager.1 hturn
      refine ⟨hdraft, fun hlive => absurd hran hlive.2, fun _ => ?_⟩
      rw [hworld]
      exact ⟨(g.world.manager.get?_drop c.jobId c.jobId).trans (if_pos rfl),
        (g.world.manager.entries_dropAll [c.jobId] c.jobId).trans (if_pos List.mem_cons_self)⟩
    · rw [if_neg (by simpa using hran)] at hturn
      have hlive : Live r j c := ⟨⟨job, hbuild⟩, hran⟩
      obtain ⟨queued, job', hqueued, hbuild', hdiffers⟩ := h.queued hlive
      obtain rfl := Except.ok.inj ((build_id hbuild c.jobId).symm.trans hbuild')
      obtain ⟨hworld, hdraft⟩ := atOnce_submit.1 hturn
      rw [Manager.createOrUpdate_of_same hqueued hdiffers] at hworld hdraft
      exact ⟨hdraft, fun _ => hworld, fun hdead => absurd hlive hdead⟩

/-- The turn of a live job that is queued otherwise brings it in under its id, as if it had never
fired. -/
theorem atOnce_settleJob_of_live {queued job : Job} (hnamed : c.jobId ≠ "")
    (hfind : left.find? (·.name == j.name) = some c) (hlive : Live r j c)
    (hqueued : g.world.manager.queue.get? c.jobId = some queued)
    (hbuild : Job.build r j c.jobId = .ok job) (hdiffers : queued.differsFrom job = true)
    (hturn : (settleJob key r left j g.draft).AtOnce now g.world g'.world g'.draft) :
    g'.draft = g.draft.put (conditionOf j c.jobId .submitted now "") ∧
      g'.world.manager.queue.get? c.jobId = some job ∧
      ∃ schedule, Schedule.parse j.schedule = .ok schedule ∧
        g'.world.manager.engine.agenda.entries.get? c.jobId = some ⟨job, j.schedule, schedule,
          none, schedule.nextAfter g.world.manager.engine.agenda.zone now⟩ := by
  obtain ⟨schedule, hparse⟩ := parse_of_build hbuild
  obtain ⟨hid, _, _, hschedule⟩ := job_of_build hbuild
  rw [atOnce_settleJob, hfind] at hturn
  simp only [build_id hbuild "", Option.filter_some, bne_iff_ne.2 hnamed, if_true, settleKept]
    at hturn
  rw [if_neg (by simpa using hlive.2)] at hturn
  obtain ⟨hworld, hdraft⟩ := atOnce_submit.1 hturn
  have hsame : ({ job with id := c.jobId } : Job) = job := by rw [← hid]
  simp only [Manager.createOrUpdate, hsame, hid, hqueued, hdiffers, if_true,
    g.world.manager.enter_of_parse now hparse, submitted] at hworld hdraft
  refine ⟨hdraft.trans (if_neg (by simp)), ?_, schedule, hschedule ▸ hparse, ?_⟩
  · rw [hworld]
    simp only [Table.get?_insert, if_true]
  · rw [hworld, ← hschedule]
    simp only [Table.get?_insert, if_true]

/-- A condition that holds of a job still does after its turn. -/
theorem Holds.settleJob (hgood : g.world.Good)
    (hsound : c.Sound g.world.issued r.key (some r.spec.target))
    (hfind : left.find? (·.name == j.name) = some c) (hdeclared : unchanged c j = true)
    (h : Holds g.world.manager r j c)
    (hturn : (settleJob key r left j g.draft).AtOnce now g.world g'.world g'.draft) :
    Holds g'.world.manager r j c := by
  obtain ⟨_, hworld, _⟩ := atOnce_settleJob_of_holds hgood hsound hfind hdeclared h hturn
  exact ⟨h.refused, fun hlive => hworld hlive ▸ h.queued hlive⟩

theorem eq_of_unchanged {j' : JobSpec} (h : unchanged c j = true) (h' : unchanged c j' = true)
    (hname : j.name = j'.name) : j = j' := by
  simp only [unchanged, Bool.and_eq_true, beq_iff_eq] at h h'
  obtain ⟨name, schedule, runOnce, targetSize⟩ := j
  obtain ⟨name', schedule', runOnce', targetSize'⟩ := j'
  obtain ⟨⟨rfl, rfl⟩, rfl⟩ := h
  obtain ⟨⟨rfl, rfl⟩, rfl⟩ := h'
  obtain rfl : name = name' := hname
  rfl

/-- Whether a declared job has a condition among some that is as declared and holds of it. -/
structure Upholds (m : Manager) (r : Resource) (cs : List Condition) (j : JobSpec)
    (c : Condition) : Prop where
  found : cs.find? (·.name == j.name) = some c
  declared : unchanged c j = true
  holds : Holds m r j c

/-- The turns of jobs of which their conditions hold leave the draft as it is. -/
theorem atOnce_settleJobs_of_holds (h : g.Sound r) (hkey : r.key = key)
    (hleft : ∀ c ∈ left, c.Sound g.world.issued r.key (some r.spec.target))
    (hjs : ∀ j ∈ js, ∃ c, Upholds g.world.manager r left j c)
    (hturns : (settleJobs key r left js g.draft).AtOnce now g.world g'.world g'.draft) :
    g'.draft = g.draft := by
  induction js generalizing g with
  | nil => exact hturns.2
  | cons j js ih =>
    obtain ⟨⟨c, hfind, hdeclared, hholds⟩, hjs⟩ := List.forall_mem_cons.1 hjs
    obtain ⟨g₁, hfirst, hrest⟩ := atOnce_settleJobs_cons.1 hturns
    obtain ⟨hsound₁, hle⟩ := h.settleJob hkey hleft hfirst
    have hc := hleft c (find?_eq_some_name hfind).1
    obtain ⟨hdraft, _, _⟩ :=
      atOnce_settleJob_of_holds h.good hc hfind hdeclared hholds hfirst
    refine (ih hsound₁ (fun c hc => (hleft c hc).mono hle) (fun j' hj' => ?_) hrest).trans hdraft
    obtain ⟨c', hfind', hdeclared', hholds'⟩ := hjs j' hj'
    refine ⟨c', hfind', hdeclared', ?_⟩
    by_cases hname : j'.name = j.name
    · rw [hname, hfind] at hfind'
      obtain rfl := Option.some.inj hfind'
      obtain rfl := eq_of_unchanged hdeclared' hdeclared hname
      exact hholds.settleJob h.good hc hfind hdeclared hfirst
    · obtain ⟨hmem, hname'⟩ := find?_eq_some_name hfind'
      have hsame := same_settleJob h hkey hleft hname hfirst
      refine hholds'.sameAt (World.SameFor.sameAt ?_ h.good hsound₁.good (hkey ▸ hleft c' hmem))
      exact hname' ▸ hsame.world

/-! ### Jobs whose excluded days are listed otherwise -/

/-- What has become of a job with a condition when the excluded days of its resource were listed
otherwise: what is told about it, and the managers before and after. -/
inductive Relisted (now : Instant) (m m' : Manager) (told : Condition → Prop) (r : Resource)
    (dates : List String) (j : JobSpec) (c : Condition) : Prop
  /-- It was brought in under its id, as if it had never fired. -/
  | broughtIn (job : Job) (schedule : Schedule) (hlive : Live r j c)
      (hdates : dates ≠ r.spec.excludeDates) (hbuild : Job.build r j c.jobId = .ok job)
      (hparse : Schedule.parse j.schedule = .ok schedule)
      (htold : told (conditionOf j c.jobId .submitted now ""))
      (hqueued : m'.queue.get? c.jobId = some { job with excludeDates := dates })
      (hentry : m'.engine.agenda.entries.get? c.jobId =
        some ⟨{ job with excludeDates := dates }, j.schedule, schedule, none,
          schedule.nextAfter m.engine.agenda.zone now⟩)
  /-- It was left alone, in queue and agenda, too. -/
  | leftAlone (hlive : Live r j c) (hdates : dates = r.spec.excludeDates) (htold : told c)
      (hsame : m.SameAt m' c.jobId)
  /-- It has run or cannot be built, and keeps its condition. -/
  | absent (hdead : ¬Live r j c) (htold : told c) (hqueue : m'.queue.get? c.jobId = none)
      (hentry : m'.engine.agenda.entries.get? c.jobId = none)

theorem Relisted.mono {m'' : Manager} {told told' : Condition → Prop} {dates : List String}
    (h : Relisted now m m' told r dates j c)
    (hkept : ∀ c', told c' → c'.jobId = c.jobId → told' c' ∧ m'.SameAt m'' c.jobId) :
    Relisted now m m'' told' r dates j c := by
  cases h with
  | broughtIn job schedule hlive hdates hbuild hparse htold hqueued hentry =>
    obtain ⟨htold, hsame⟩ := hkept _ htold rfl
    exact .broughtIn job schedule hlive hdates hbuild hparse htold (hsame.1.trans hqueued)
      (hsame.2.trans hentry)
  | leftAlone hlive hdates htold hsame =>
    obtain ⟨htold, hsame'⟩ := hkept c htold rfl
    exact .leftAlone hlive hdates htold (hsame.trans hsame')
  | absent hdead htold hqueue hentry =>
    obtain ⟨htold, hsame⟩ := hkept c htold rfl
    exact .absent hdead htold (hsame.1.trans hqueue) (hsame.2.trans hentry)

/-- Whether the draft of a stage has a condition for a name. -/
def Stage.Tells (g : Stage) (name : String) (c : Condition) : Prop :=
  g.draft.conditions.find? (·.name == name) = some c

/-- Whether a stage has come to no turn of a job yet: its condition is the one that was retained,
and what is under its id is as it was. -/
structure Stage.Awaits (m : Manager) (name : String) (c : Condition) (g : Stage) : Prop where
  tells : g.Tells name c
  zone : g.world.manager.engine.agenda.zone = m.engine.agenda.zone
  same : m.SameAt g.world.manager c.jobId

section

variable (hgood : g.world.Good) (hrestates : Restates r r')
  (hsound : c.Sound g.world.issued r'.key (some r'.spec.target))
  (hupholds : Upholds m r left j c)
  (hturn : (settleJob key r' left j g.draft).AtOnce now g.world g'.world g'.draft)

include hgood hrestates hsound hupholds hturn

/-- A job that is queued as declared with the new list, or is not live, is left alone. -/
theorem relisted_of_holds (htells : g.Tells j.name c) (hholds : Holds g.world.manager r' j c)
    (hlive : Live r j c → r'.spec.excludeDates = r.spec.excludeDates ∧
      m.SameAt g.world.manager c.jobId) :
    Relisted now m g'.world.manager (g'.Tells j.name) r r'.spec.excludeDates j c := by
  obtain ⟨hdraft, hworld, habsent⟩ := atOnce_settleJob_of_holds hgood hsound hupholds.found
    hupholds.declared hholds hturn
  rw [hrestates.live] at hworld habsent
  have htells : g'.Tells j.name c := by
    rw [Stage.Tells, hdraft]
    exact htells
  by_cases hnow : Live r j c
  · obtain ⟨hdates, hsame⟩ := hlive hnow
    exact .leftAlone hnow hdates htells (hworld hnow ▸ hsame)
  · obtain ⟨hqueue, hentry⟩ := habsent hnow
    exact .absent hnow htells hqueue hentry

theorem relisted_of_awaits (h : g.Awaits m j.name c) :
    Relisted now m g'.world.manager (g'.Tells j.name) r r'.spec.excludeDates j c := by
  obtain ⟨htells, hzone, hsame⟩ := h
  have hholds := hupholds.holds.sameAt hsame
  by_cases hedited : Live r j c ∧ r'.spec.excludeDates ≠ r.spec.excludeDates
  · obtain ⟨hlive, hdates⟩ := hedited
    obtain ⟨queued, job, hqueued, hbuild, hdiffers⟩ := hholds.queued hlive
    have hbuild' := hrestates.build hbuild
    have hname := (find?_eq_some_name hupholds.found).2
    have hnamed := named_of_build (build_id hbuild' "") hsound hname hupholds.declared
    obtain ⟨hdraft, hqueued', schedule, hparse, hentry⟩ := atOnce_settleJob_of_live hnamed
      hupholds.found (hrestates.live.2 hlive) hqueued hbuild'
      ((Job.differsFrom_dates hdiffers _).2 (Job.excludeDates_of_build hbuild ▸ hdates)) hturn
    refine .broughtIn job schedule hlive hdates hbuild hparse ?_ hqueued' (hzone ▸ hentry)
    rw [Stage.Tells, hdraft]
    exact find?_put g.draft rfl
  · have hdates : Live r j c → r'.spec.excludeDates = r.spec.excludeDates :=
      fun hlive => Decidable.byContradiction fun hne => hedited ⟨hlive, hne⟩
    exact relisted_of_holds hgood hrestates hsound hupholds hturn htells
      (hholds.restates hrestates hdates) fun hlive => ⟨hdates hlive, hsame⟩

/-- A further turn of a job that is declared once more changes nothing. -/
theorem Relisted.again
    (h : Relisted now m g.world.manager (g.Tells j.name) r r'.spec.excludeDates j c) :
    Relisted now m g'.world.manager (g'.Tells j.name) r r'.spec.excludeDates j c := by
  cases h with
  | broughtIn job schedule hlive hdates hbuild hparse htold hqueued hentry =>
    have hbuild' := hrestates.build hbuild
    have hholds : Holds g.world.manager r' j c := by
      refine ⟨fun e hrefused => ?_, fun _ => ⟨_, _, hqueued, hbuild', Job.differsFrom_self _⟩⟩
      exact absurd (hrefused.symm.trans (build_id hbuild' "")) (by simp)
    obtain ⟨hdraft, hworld, _⟩ := atOnce_settleJob_of_holds hgood hsound hupholds.found
      hupholds.declared hholds hturn
    rw [← hworld (hrestates.live.2 hlive)] at hqueued hentry
    refine .broughtIn job schedule hlive hdates hbuild hparse ?_ hqueued hentry
    rw [Stage.Tells, hdraft]
    exact htold
  | leftAlone hlive hdates htold hsame =>
    exact relisted_of_holds hgood hrestates hsound hupholds hturn htold
      ((hupholds.holds.sameAt hsame).restates hrestates fun _ => hdates)
      fun _ => ⟨hdates, hsame⟩
  | absent hdead htold hqueue hentry =>
    have hholds : Holds g.world.manager r j c :=
      ⟨hupholds.holds.refused, fun hlive => absurd hlive hdead⟩
    exact relisted_of_holds hgood hrestates hsound hupholds hturn htold
      (hholds.restates hrestates fun hlive => absurd hlive hdead)
      fun hlive => absurd hlive hdead

end

/-- When all jobs had their turns, the excluded days of each of them are listed otherwise. -/
theorem relisted_settleJobs (h : g.Sound r') (hkey : r'.key = key) (hrestates : Restates r r')
    (hleft : ∀ c ∈ left, c.Sound g.world.issued r'.key (some r'.spec.target))
    (hupholds : Upholds m r left j c) (hjs : ∀ j' ∈ js, j'.name = j.name → j' = j)
    (hstate : g.Awaits m j.name c ∧ j ∈ js ∨
      Relisted now m g.world.manager (g.Tells j.name) r r'.spec.excludeDates j c)
    (hturns : (settleJobs key r' left js g.draft).AtOnce now g.world g'.world g'.draft) :
    Relisted now m g'.world.manager (g'.Tells j.name) r r'.spec.excludeDates j c ∧
      g'.Sound r' := by
  obtain ⟨hmem, hname⟩ := find?_eq_some_name hupholds.found
  induction js generalizing g with
  | nil =>
    obtain ⟨world, draft⟩ := g'
    obtain ⟨rfl, rfl⟩ := hturns
    exact ⟨hstate.resolve_left fun hawaits => List.not_mem_nil hawaits.2, h⟩
  | cons j' js ih =>
    obtain ⟨hj', hjs⟩ := List.forall_mem_cons.1 hjs
    obtain ⟨g₁, hfirst, hrest⟩ := atOnce_settleJobs_cons.1 hturns
    obtain ⟨hsound₁, hle⟩ := h.settleJob hkey hleft hfirst
    refine ih hsound₁ (fun c hc => (hleft c hc).mono hle) hjs ?_ hrest
    have hc := hleft c hmem
    by_cases hsame : j'.name = j.name
    · obtain rfl := hj' hsame
      rcases hstate with ⟨hawaits, _⟩ | hrelisted
      · exact .inr (relisted_of_awaits h.good hrestates hc hupholds hfirst hawaits)
      · exact .inr (hrelisted.again h.good hrestates hc hupholds hfirst)
    · have hother := same_settleJob h hkey hleft (Ne.symm hsame) hfirst
      have hslot := (hname.symm ▸ hother.world).sameAt h.good hsound₁.good (hkey ▸ hc)
      rcases hstate with ⟨⟨htells, hzone, hslot'⟩, hj⟩ | hrelisted
      · refine .inl ⟨⟨hother.found.trans htells, hother.world.zone.trans hzone,
          hslot'.trans hslot⟩, (List.mem_cons.1 hj).resolve_left ?_⟩
        rintro rfl
        exact hsame rfl
      · exact .inr (hrelisted.mono fun c' htells _ => ⟨hother.found.trans htells, hslot⟩)

/-! ### Finding out whether conditions hold -/

theorem holds_iff : Holds m r j c ↔
    match Job.build r j "" with
    | .error e => c.state = .failed ∧ c.message = buildFailure j.name e
    | .ok job => (j.isRunOnce = true ∧ c.state.isTerminal = true) ∨
      ((m.queue.get? c.jobId).any
        fun queued => !queued.differsFrom { job with id := c.jobId }) = true := by
  cases hbuild : Job.build r j "" with
  | error e =>
    refine ⟨fun h => h.refused e hbuild, fun h => ⟨fun e' hbuild' => ?_, fun hlive =>
      absurd hlive (not_live_of_error hbuild)⟩⟩
    exact Except.error.inj (hbuild.symm.trans hbuild') ▸ h
  | ok job =>
    simp only [Option.any_eq_true, Bool.not_eq_true']
    constructor
    · intro h
      refine Decidable.or_iff_not_imp_left.2 fun hran => ?_
      obtain ⟨queued, job', hqueued, hbuild', hdiffers⟩ := h.queued ⟨⟨job, hbuild⟩, hran⟩
      obtain rfl := Except.ok.inj ((build_id hbuild c.jobId).symm.trans hbuild')
      exact ⟨queued, hqueued, hdiffers⟩
    · refine fun h => ⟨fun e hbuild' => absurd (hbuild.symm.trans hbuild') (by simp),
        fun hlive => ?_⟩
      obtain ⟨queued, hqueued, hdiffers⟩ := h.resolve_left hlive.2
      exact ⟨queued, _, hqueued, build_id hbuild c.jobId, hdiffers⟩

instance : Decidable (Holds m r j c) :=
  haveI : Decidable (match Job.build r j "" with
    | .error e => c.state = .failed ∧ c.message = buildFailure j.name e
    | .ok job => (j.isRunOnce = true ∧ c.state.isTerminal = true) ∨
      ((m.queue.get? c.jobId).any
        fun queued => !queued.differsFrom { job with id := c.jobId }) = true) :=
    match Job.build r j "" with
    | .error _ => inferInstance
    | .ok _ => inferInstance
  decidable_of_iff _ holds_iff.symm

instance (cs : List Condition) : Decidable (∃ c, Upholds m r cs j c) :=
  decidable_of_iff (((cs.find? (·.name == j.name)).any fun c =>
    unchanged c j && decide (Holds m r j c)) = true) <| by
      simp only [Option.any_eq_true, Bool.and_eq_true, decide_eq_true_eq]
      exact exists_congr fun c => ⟨fun ⟨h, h', h''⟩ => ⟨h, h', h''⟩, fun h => ⟨h.1, h.2, h.3⟩⟩

end Reconcile

namespace World

variable {now : Instant} {w w' : World} {key : OwnerKey} {r r' : Resource} {s : Status}
  {version : String} {a : Except Fault Unit}

/-- Whether a resource is in effect: its status has adopted the target and the excluded days, every
condition is retained, and every declared job has a condition that is as declared and holds of
it. -/
structure Upheld (w : World) (key : OwnerKey) (r : Resource) (s : Status) : Prop where
  resource : w.resources key = some r
  status : r.status = some s
  adopted : s.globalChange r.spec = false
  retained : ∀ c ∈ s.conditions, Reconcile.retains r.spec c = true
  jobs : ∀ j ∈ r.spec.jobs, ∃ c, Reconcile.Upholds w.manager r s.conditions j c

/-- Whether a resource that was in effect is stored with its excluded days listed otherwise. -/
structure Restated (w : World) (key : OwnerKey) (r r' : Resource) (s : Status) : Prop where
  good : w.Good
  restates : Reconcile.Restates r r'
  resource : w.resources key = some r'
  status : r'.status = some s
  adopted : s.globalChange r'.spec = false
  retained : ∀ c ∈ s.conditions, Reconcile.retains r'.spec c = true
  jobs : ∀ j ∈ r.spec.jobs, ∃ c, Reconcile.Upholds w.manager r s.conditions j c

theorem Upheld.restated (h : w.Upheld key r s) (hw : Reachable w)
    (hrestates : Reconcile.Restates r r') (hfresh : version ∉ w.versions key) :
    (w.rewritten r' version).manager = w.manager ∧
      ∃ r₁, (w.rewritten r' version).Restated key r r₁ s ∧ r₁.spec = r'.spec := by
  have hfiled := ((good_of_reachable hw).resources key r h.resource).filed
  obtain rfl : r'.key = key := hrestates.key.trans hfiled
  obtain ⟨r₁, hr₁, hspec, hkey, hstatus, hmanager, _⟩ := exists_rewritten hfresh
  rw [h.resource, Option.bind_some, h.status] at hstatus
  refine ⟨hmanager, r₁, ⟨good_of_reachable (reachable_rewritten hw r' version), ?_, hr₁, hstatus,
    ?_, fun c hc => ?_, ?_⟩, hspec⟩
  · exact ⟨hkey.trans hfiled.symm, hspec ▸ hrestates.target, hspec ▸ hrestates.jobs,
      hspec ▸ hrestates.dates⟩
  · rw [hspec]
    exact Status.globalChange_of_sameTexts hrestates.target hrestates.dates h.adopted
  · rw [Reconcile.retains, hspec, hrestates.jobs]
    exact h.retained c hc
  · rw [hmanager]
    exact h.jobs

/-- When such a resource is reconciled, every condition is retained and nothing is dropped for a
start. -/
theorem Restated.exists_course (h : w.Restated key r r' s)
    (hrun : (reconcile key).AtOnce now w w' a) :
    ∃ first last, Course now key r' w w' a first last ∧ r'.status.getD .initial = s ∧
      Reconcile.retained r'.spec s = s.conditions ∧ ∀ name, w.SameFor key name first.world := by
  have hstatus : r'.status.getD .initial = s := by rw [h.status, Option.getD_some]
  obtain ⟨first, last, hcourse⟩ := World.exists_course h.good h.resource hrun
  refine ⟨first, last, hcourse, hstatus, ?_, fun name => ?_⟩
  · rw [Reconcile.retained, h.adopted]
    exact List.filter_eq_self.2 h.retained
  · have hfilter : s.conditions.filter (!Reconcile.retains r'.spec ·) = [] :=
      List.filter_eq_nil_iff.2 fun c hc => by simp [h.retained c hc]
    have hdivided : w.divided key r' = w := by
      simp only [divided, Reconcile.droppedIds, hstatus, h.adopted, hfilter]
      rfl
    exact hdivided ▸ hcourse.start name

/-- What is under the id of a condition of the status is the same in a world that is the same for
its name. -/
theorem Restated.sameAt (h : w.Restated key r r' s) (hw' : w'.Good) {c : Condition}
    (hc : c ∈ s.conditions) (hsame : w.SameFor key c.name w') :
    w.manager.SameAt w'.manager c.jobId :=
  hsame.sameAt h.good hw' (((h.good.resources key r' h.resource).status s h.status).conditions c hc)

/-- What becomes of a job in such a reconcile. -/
theorem Restated.relisted {j : JobSpec} {c : Condition} (h : w.Restated key r r' s)
    (hj : j ∈ r.spec.jobs) (hupholds : Reconcile.Upholds w.manager r s.conditions j c)
    (hrun : (reconcile key).AtOnce now w w' a) :
    Reconcile.Relisted now w.manager w'.manager (w'.Shows key j.name) r r'.spec.excludeDates
      j c := by
  obtain ⟨first, last, hcourse, hstatus, hretained, hstart⟩ := h.exists_course hrun
  have ⟨_, _, hdraft, hsound, hleft, hturns, _, _⟩ := hcourse
  rw [hstatus, hretained] at hdraft hleft hturns
  have hfiled := (h.good.resources key r' h.resource).filed
  obtain ⟨hmem, hname⟩ := Reconcile.find?_eq_some_name hupholds.found
  have hawaits : first.Awaits w.manager j.name c := by
    refine ⟨?_, (hstart j.name).zone, h.sameAt hsound.good hmem (hstart c.name)⟩
    rw [Reconcile.Stage.Tells, hdraft]
    exact hupholds.found
  have hnamesakes : ∀ j' ∈ r'.spec.jobs, j'.name = j.name → j' = j := by
    intro j' hj' hsame
    obtain ⟨c', hfind', hdeclared', _⟩ := h.jobs j' (h.restates.jobs ▸ hj')
    rw [hsame, hupholds.found] at hfind'
    obtain rfl := Option.some.inj hfind'
    exact Reconcile.eq_of_unchanged hdeclared' hupholds.declared hsame
  obtain ⟨hrelisted, hlast⟩ := Reconcile.relisted_settleJobs hsound hfiled h.restates hleft
    hupholds hnamesakes (.inl ⟨hawaits, h.restates.jobs ▸ hj⟩) hturns
  refine hrelisted.mono fun c' htells hid => ?_
  rw [← hid]
  exact hcourse.shows h.good h.resource hlast htells

/-- If no job has to be brought in anew, no status is written. -/
theorem Restated.unwritten (h : w.Restated key r r' s)
    (hdates : r'.spec.excludeDates = r.spec.excludeDates ∨ ∀ j ∈ r.spec.jobs, ∀ c,
      s.conditions.find? (·.name == j.name) = some c → ¬Reconcile.Live r j c)
    (hrun : (reconcile key).AtOnce now w w' a) : w'.resources = w.resources := by
  obtain ⟨first, last, hcourse, hstatus, hretained, hstart⟩ := h.exists_course hrun
  obtain ⟨_, _, hdraft, hsound, hleft, hturns, hresources, hfinish⟩ := hcourse
  rw [hstatus, hretained] at hdraft hleft hturns
  have hunmoved : last.draft = first.draft := by
    refine Reconcile.atOnce_settleJobs_of_holds hsound
      (h.good.resources key r' h.resource).filed hleft (fun j hj => ?_) hturns
    rw [h.restates.jobs] at hj
    obtain ⟨c, hfind, hdeclared, hholds⟩ := h.jobs j hj
    obtain ⟨hmem, _⟩ := Reconcile.find?_eq_some_name hfind
    refine ⟨c, hfind, hdeclared, (hholds.sameAt (h.sameAt hsound.good hmem
      (hstart c.name))).restates h.restates fun hlive => ?_⟩
    exact hdates.resolve_right fun hdead => hdead j hj c hfind hlive
  have hunchanged : last.draft.changed = false := by
    rw [hunmoved, hdraft, h.adopted]
    simp
  have hfinish := Procedure.atOnce_manager.1 hfinish
  rw [if_neg (by simp [hunchanged])] at hfinish
  rw [hfinish.1]
  exact hresources

/-- The excluded days of a resource that is in effect are listed otherwise, in another order or
some of them more often, and nothing else about it is edited. A reconcile that nothing comes between
can be carried out then and succeeds, and it brings every live job in anew, though its condition is
retained: the condition says once more that the job was submitted, and its entry in the agenda does
not know when it last fired. What has run or cannot be built keeps its condition. If the list is the
same as before, or no job is live, no status is written. -/
theorem relisted_brought_in (hw : Reachable w) (h : w.Upheld key r s)
    (hrestates : Reconcile.Restates r r') (hfresh : version ∉ w.versions key) (now : Instant) :
    (∃ w', (reconcile key).AtOnce now (w.rewritten r' version) w' (.ok ())) ∧
    ∀ w' a, (reconcile key).AtOnce now (w.rewritten r' version) w' a → a = .ok () ∧
      (∀ j ∈ r.spec.jobs, ∃ c, s.conditions.find? (·.name == j.name) = some c ∧
        Reconcile.Relisted now w.manager w'.manager (w'.Shows key j.name) r r'.spec.excludeDates
          j c) ∧
      (r'.spec.excludeDates = r.spec.excludeDates ∨ (∀ j ∈ r.spec.jobs, ∀ c,
          s.conditions.find? (·.name == j.name) = some c → ¬Reconcile.Live r j c) →
        w'.resources = (w.rewritten r' version).resources) := by
  obtain ⟨hmanager, r₁, hrestated, hspec⟩ := h.restated hw hrestates hfresh
  have hsupplied := supplied_of_reachable (reachable_rewritten hw r' version)
  refine ⟨exists_atOnce now hsupplied key, fun w' a hrun =>
    ⟨hrun.yields (yields_reconcile key), fun j hj => ?_, fun hdates => ?_⟩⟩
  · obtain ⟨c, hupholds⟩ := hrestated.jobs j hj
    refine ⟨c, hupholds.found, ?_⟩
    rw [← hmanager, ← hspec]
    exact hrestated.relisted hj hupholds hrun
  · exact hrestated.unwritten (hspec ▸ hdates) hrun

theorem upheld_iff {spec : Spec} : (∃ r s, w.Upheld key r s ∧ r.spec = spec) ↔
    ((w.resources key).any fun r => r.status.any fun s => decide (r.spec = spec ∧
      s.globalChange r.spec = false ∧ (∀ c ∈ s.conditions, Reconcile.retains r.spec c = true) ∧
      ∀ j ∈ r.spec.jobs, ∃ c, Reconcile.Upholds w.manager r s.conditions j c)) = true := by
  simp only [Option.any_eq_true, decide_eq_true_eq]
  constructor
  · rintro ⟨r, s, h, hspec⟩
    exact ⟨r, h.resource, s, h.status, hspec, h.adopted, h.retained, h.jobs⟩
  · rintro ⟨r, hr, s, hs, hspec, hadopted, hretained, hjobs⟩
    exact ⟨r, s, ⟨hr, hs, hadopted, hretained, hjobs⟩, hspec⟩

instance {spec : Spec} : Decidable (∃ r s, w.Upheld key r s ∧ r.spec = spec) :=
  decidable_of_iff _ upheld_iff.symm

/-- The resource that asks for a larger size every morning, but for two days. -/
def festive : Resource :=
  { web with spec := { web.spec with excludeDates := ["* * * 25 12 *", "* * * 26 12 *"] } }

/-- The same resource with the two days in the other order. -/
def reordered : Resource :=
  { festive with spec := { festive.spec with excludeDates := festive.spec.excludeDates.reverse } }

/-- The world in which it was reconciled at midnight, and in which the outcome of what was fired in
the morning is recorded. -/
def firedFestive : World :=
  ((((new Zone.utc 0).write festive.key festive "0").carriedOut ⟨0, 0⟩
    (task (reconcile festive.key))).started (28800 * nanosPerSecond)).reported ⟨28800, 0⟩ default
    (.ok "scaled")

theorem reachable_firedFestive : Reachable firedFestive := by
  have hwritten := (Reachable.new Zone.utc 0).step (.put festive "0" (by decide))
  have hreconciled := reachable_carriedOut hwritten (.inl ⟨festive.key, rfl⟩) ⟨0, 0⟩
  exact reachable_reported (reachable_started hreconciled _) _ _ _

theorem upheld_firedFestive :
    ∃ r s, firedFestive.Upheld festive.key r s ∧ r.spec = festive.spec := by decide +kernel

theorem restates_reordered {r : Resource} (hkey : r.key = festive.key)
    (hspec : r.spec = festive.spec) : Reconcile.Restates r reordered where
  key := hkey.symm
  target := by rw [hspec]; rfl
  jobs := by rw [hspec]; rfl
  dates := by
    rw [hspec]
    decide

theorem festive_brought_in : ∃ r s w' c,
    firedFestive.Upheld festive.key r s ∧ Reconcile.Restates r reordered ∧
      (reconcile festive.key).AtOnce ⟨28860, 0⟩ (firedFestive.rewritten reordered "edited") w'
        (.ok ()) ∧
      s.conditions.find? (·.name == morning.name) = some c ∧
      w'.Shows festive.key morning.name
        (Reconcile.conditionOf morning c.jobId .submitted ⟨28860, 0⟩ "") ∧
      (w'.manager.engine.agenda.entries.get? c.jobId).map Entry.prev = some none := by
  obtain ⟨r, s, hupheld, hspec⟩ := upheld_firedFestive
  have hkey := ((good_of_reachable reachable_firedFestive).resources _ r hupheld.resource).filed
  have hrestates := restates_reordered hkey hspec
  have hfresh : "edited" ∉ firedFestive.versions festive.key := by decide +kernel
  obtain ⟨⟨w', hrun⟩, hrelisted⟩ :=
    relisted_brought_in reachable_firedFestive hupheld hrestates hfresh ⟨28860, 0⟩
  obtain ⟨_, hjobs, _⟩ := hrelisted w' _ hrun
  obtain ⟨c, hfind, hmorning⟩ := hjobs morning (hspec ▸ List.mem_cons_self)
  cases hmorning with
  | broughtIn job schedule hlive hdates hbuild hparse htold hqueued hentry =>
    exact ⟨r, s, w', c, hupheld, hrestates, hrun, hfind, htold, by rw [hentry, Option.map_some]⟩
  | leftAlone hlive hdates htold hsame =>
    rw [hspec] at hdates
    exact absurd hdates (by decide)
  | absent hdead htold hqueue hentry =>
    have hlive : (Job.build festive morning "").toOption.isSome = true ∧
        morning.isRunOnce = false := by decide +kernel
    obtain ⟨job, hjob⟩ := Option.isSome_iff_exists.1 hlive.1
    refine absurd ⟨⟨job, ?_⟩, fun hran => ?_⟩ hdead
    · rw [Reconcile.build_congr hkey hspec]
      exact eq_ok_of_toOption hjob
    · exact absurd (hlive.2.symm.trans hran.1) (by decide)

/-- If the days are put in another order, a reconcile writes the status, in which the job counts as
submitted once more, and the agenda no longer knows that it has fired. -/
theorem reordered_not_left_alone : ∃ r s w',
    Reachable firedFestive ∧ firedFestive.Upheld festive.key r s ∧
      Reconcile.Restates r reordered ∧
      (reconcile festive.key).AtOnce ⟨28860, 0⟩ (firedFestive.rewritten reordered "edited") w'
        (.ok ()) ∧
      s.conditions.map Condition.state = [.succeed, .failed] ∧
      w'.versions festive.key ≠ (firedFestive.rewritten reordered "edited").versions festive.key ∧
      ((w'.resources festive.key).bind Resource.status).map
        (fun s' => s'.conditions.map Condition.state) = some [.submitted, .failed] ∧
      (firedFestive.manager.engine.agenda.entries.get? morning.name).map Entry.prev =
        some (some ⟨28800, 0⟩) ∧
      (w'.manager.engine.agenda.entries.get? morning.name).map Entry.prev = some none := by
  obtain ⟨r, s, hupheld, hspec⟩ := upheld_firedFestive
  have hkey := ((good_of_reachable reachable_firedFestive).resources _ r hupheld.resource).filed
  have hformer : ((firedFestive.resources festive.key).bind Resource.status).map
      (fun s => s.conditions.map Condition.state) = some [.succeed, .failed] := by decide +kernel
  rw [hupheld.resource, Option.bind_some, hupheld.status, Option.map_some] at hformer
  have hsucceeds : succeeds ⟨28860, 0⟩ (reconcile festive.key)
      (firedFestive.rewritten reordered "edited") = true := by decide +kernel
  obtain ⟨w', hsmooth⟩ := smooth?_of_succeeds hsucceeds
  have hleft : (smooth? ⟨28860, 0⟩ (reconcile festive.key)
      (firedFestive.rewritten reordered "edited")).any (fun result => decide (
        result.2.versions festive.key ≠
          (firedFestive.rewritten reordered "edited").versions festive.key ∧
        ((result.2.resources festive.key).bind Resource.status).map
          (fun s' => s'.conditions.map Condition.state) = some [.submitted, .failed] ∧
        (result.2.manager.engine.agenda.entries.get? morning.name).map Entry.prev =
          some none)) = true := by decide +kernel
  rw [hsmooth, Option.any_some, decide_eq_true_eq] at hleft
  obtain ⟨hwritten, hstates, hentry⟩ := hleft
  exact ⟨r, s, w', reachable_firedFestive, hupheld, restates_reordered hkey hspec,
    atOnce_of_smooth? hsmooth, Option.some.inj hformer, hwritten, hstates, by decide +kernel,
    hentry⟩

end World

end CronScale
