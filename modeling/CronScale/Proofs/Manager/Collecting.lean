import CronScale.Proofs.Engine.Dispatching
import CronScale.Proofs.Manager.Reconciled
import CronScale.Proofs.Manager.Retired
/-!
# A pass that nothing comes between

A pass that collects lost jobs is carried out here in one go, at one reading of the clock, with the
same answer whenever it asks for the same resource. What it finds about a job (`Fate`) decides what
it does with it, and since it visits every job once and a visit concerns that job only, it finds
about each job what it would have found at the start (`Survey.fate_settle`). So its outcome is that
of all fates together, in whatever order the jobs are listed.
-/

namespace CronScale

open CronScale.Calendar

/-! ### Entries of the agenda stay coherent -/

namespace Engine

variable {e e' : Engine Job}

theorem update_eq_ok {now : Instant} {job : Job} : e.update now job = .ok e' ↔
    ∃ s, Schedule.parse job.schedule = .ok s ∧ e' =
      { e with
        agenda := { e.agenda with
          entries := e.agenda.entries.insert job.id
            ⟨job, job.schedule, s, none, s.nextAfter e.agenda.zone now⟩ }
        woken := true } := by
  simp only [update, add, Agenda.add, Schedulable.schedule, Schedulable.id]
  cases Schedule.parse job.schedule with
  | error err => simp [Except.map]
  | ok s => simp [Except.map, eq_comm]

theorem coherent_update (h : e.agenda.Coherent) {now : Instant} {job : Job}
    (hupdate : e.update now job = .ok e') : e'.agenda.Coherent := by
  obtain ⟨a, ha, rfl⟩ := map_eq_ok.1 hupdate
  exact h.add ha

theorem coherent_remove (h : e.agenda.Coherent) (id : String) : (e.remove id).agenda.Coherent := by
  unfold remove
  split
  · exact h.remove id
  · exact h

theorem coherent_turn (h : e.agenda.Coherent) (now : Int) : (e.turn now).2.agenda.Coherent := by
  unfold turn
  split
  · exact h
  · split
    · exact h.dispatch _
    · exact h

end Engine

namespace Manager

variable {m : Manager}

theorem coherent_dropAll (h : m.engine.agenda.Coherent) (ids : List String) :
    (m.dropAll ids).engine.agenda.Coherent := by
  induction ids generalizing m with
  | nil => exact h
  | cons id ids ih => exact ih (Engine.coherent_remove h id)

theorem coherent_answer (h : m.engine.agenda.Coherent) (now : Instant) (c : ManagerCall) :
    (m.answer now c).2.engine.agenda.Coherent := by
  cases c with
  | note owner complaint =>
    obtain ⟨complaints, heq⟩ := m.note_eq owner complaint
    rw [answer, heq]
    exact h
  | createOrUpdate job =>
    rw [answer]
    rcases m.createOrUpdate_eq now job with ⟨change, heq⟩ | ⟨_, _, _, heq⟩
    · rcases m.enter_eq now job change with ⟨_, _, heq'⟩ | ⟨engine, hupdate, heq'⟩
      · rw [heq, heq']
        exact h
      · rw [heq, heq']
        exact Engine.coherent_update h hupdate
    · rw [heq]
      exact h
  | delete id => exact Engine.coherent_remove h id
  | deleteOwnedBy owner => exact coherent_dropAll h _
  | retainOwned owner keep => exact coherent_dropAll h _
  | resubmit id =>
    simp only [answer, resubmit]
    split
    · exact h
    · split
      · exact h
      · rename_i engine hupdate
        exact Engine.coherent_update h hupdate
  | _ => exact h

/-- A job is scheduled anew if it is queued and its schedule can be read. -/
theorem resubmit_eq (m : Manager) (now : Instant) (id : String) :
    (m.resubmit now id).2 = m ∨
    ∃ job s, m.queue.get? id = some job ∧ Schedule.parse job.schedule = .ok s ∧
      (m.resubmit now id).2 = { m with engine := { m.engine with
        agenda := { m.engine.agenda with
          entries := m.engine.agenda.entries.insert job.id
            ⟨job, job.schedule, s, none, s.nextAfter m.engine.agenda.zone now⟩ }
        woken := true } } := by
  unfold resubmit
  split
  · exact .inl rfl
  · rename_i job hjob
    split
    · exact .inl rfl
    · rename_i engine hupdate
      obtain ⟨s, hparse, rfl⟩ := Engine.update_eq_ok.1 hupdate
      exact .inr ⟨job, s, hjob, hparse, rfl⟩

theorem resubmit_of_queued {m : Manager} {id : String} {job : Job} {s : Schedule}
    (hjob : m.queue.get? id = some job) (hparse : Schedule.parse job.schedule = .ok s)
    (now : Instant) :
    (m.resubmit now id).2 = { m with engine := { m.engine with
      agenda := { m.engine.agenda with
        entries := m.engine.agenda.entries.insert job.id
          ⟨job, job.schedule, s, none, s.nextAfter m.engine.agenda.zone now⟩ }
      woken := true } } := by
  have hupdate : m.engine.update now job = .ok _ := Engine.update_eq_ok.2 ⟨s, hparse, rfl⟩
  simp only [resubmit, hjob, hupdate]

theorem sameAt_resubmit {m : Manager}
    (h : ∀ id job, m.queue.get? id = some job → job.id = id) {id id' : String} (hne : id ≠ id')
    (now : Instant) : m.SameAt (m.resubmit now id').2 id := by
  rcases m.resubmit_eq now id' with heq | ⟨job, s, hjob, _, heq⟩
  · rw [heq]
    exact .refl m id
  · rw [heq]
    have hother : id ≠ job.id := fun hid => hne (hid.trans (h id' job hjob))
    exact ⟨rfl, by simp only [Table.get?_insert, hother, if_false]⟩

/-- Whether queue and agenda are in lockstep and the entries of the agenda are coherent. -/
structure Orderly (m : Manager) : Prop where
  lockstep : m.Lockstep
  coherent : m.engine.agenda.Coherent

theorem Orderly.answer (h : m.Orderly) (now : Instant) (c : ManagerCall) :
    (m.answer now c).2.Orderly :=
  ⟨h.lockstep.answer now c, coherent_answer h.coherent now c⟩

/-- A queued job is scheduled, so its schedule was read before. -/
theorem Orderly.exists_entry (h : m.Orderly) {id : String} {job : Job}
    (hjob : m.queue.get? id = some job) :
    ∃ e, m.engine.agenda.entries.get? id = some e ∧ e.job = job ∧
      Schedule.parse job.schedule = .ok e.schedule := by
  have hpresent := h.lockstep.sameIds id
  simp only [Table.contains, hjob, Option.isSome_some] at hpresent
  obtain ⟨e, he⟩ := Option.isSome_iff_exists.1 hpresent
  obtain ⟨hqueued, hexpr⟩ := h.lockstep.entries id e he
  obtain rfl := Option.some.inj (hqueued.symm.trans hjob)
  exact ⟨e, he, rfl, hexpr ▸ (h.coherent.entry id e he).parsed⟩

end Manager

namespace World

theorem coherent_of_reachable {w : World} (h : Reachable w) : w.manager.engine.agenda.Coherent := by
  induction h with
  | new zone staleness => exact Agenda.coherent_empty zone staleness
  | step _ hstep ih =>
    cases hstep with
    | call next reply hask hanswer =>
      rcases answer_of_answers hanswer with hsame | ⟨mc, now, _, heq⟩
      · exact hsame ▸ ih
      · exact heq ▸ Manager.coherent_answer ih now mc
    | turn now => exact Engine.coherent_turn ih now
    | restart zone staleness => exact Agenda.coherent_empty zone staleness
    | _ => exact ih

end World

/-! ### What a visit finds and does -/

namespace JobCounts

def add (c d : JobCounts) : JobCounts :=
  ⟨c.total + d.total, c.submitted + d.submitted, c.succeeded + d.succeeded, c.failed + d.failed,
    c.expired + d.expired⟩

/-- How often jobs were counted, as whatever. -/
def counted (c : JobCounts) : Int := c.submitted + c.succeeded + c.failed + c.expired

theorem add_right_comm (a b c : JobCounts) : (a.add b).add c = (a.add c).add b := by
  simp only [add, Int.add_right_comm]

end JobCounts

/-- A job that is out of date, when it was missed and the resource that declares it. -/
structure Missed where
  time : Instant
  job : Job
  resource : Resource

namespace Missed

/-- What is to be run once more. -/
def rerun (x : Missed) : Instant × Job := (x.time, x.job)

/-- What is made known, and about which resource. -/
def report (x : Missed) : Resource × Event :=
  (x.resource, ⟨.warning, "OutOfDate", "rerun out of date job: " ++ x.job.name⟩)

end Missed

/-- What a pass finds about a job: that its resource could not be asked for or is gone; or else that
the job is scheduled as it should be, out of date or not scheduled at all. -/
inductive Fate where
  | unknown
  | gone
  | live (state : Option JobState)
  | overdue (r : Resource) (missed : Instant)
  | lost

namespace Fate

/-- How a job is counted. -/
def tally : Fate → JobCounts → JobCounts
  | unknown, c => c
  | gone, c => { c with expired := c.expired + 1 }
  | live state, c => Sweep.countLive c state
  | overdue _ _, c => Sweep.countResubmitted c
  | lost, c => Sweep.countResubmitted c

def isGone : Fate → Bool
  | gone => true
  | _ => false

def isKnown : Fate → Bool
  | unknown => false
  | _ => true

/-- Whether a job is scheduled anew. -/
def resubmits : Fate → Bool
  | overdue _ _ => true
  | lost => true
  | _ => false

/-- Whether queue or agenda are changed. -/
def stirs : Fate → Bool
  | unknown => false
  | live _ => false
  | _ => true

/-- What was missed. -/
def missed (job : Job) : Fate → List Missed
  | overdue r time => [⟨time, job, r⟩]
  | _ => []

/-- What becomes of the manager. -/
def enact (now : Instant) (job : Job) (m : Manager) : Fate → Manager
  | gone => (m.drop job.id).dropComplaint job.owner
  | overdue _ _ => (m.resubmit now job.id).2
  | lost => (m.resubmit now job.id).2
  | _ => m

theorem tally_eq (f : Fate) (c : JobCounts) : f.tally c = c.add (f.tally {}) := by
  cases f with
  | live state =>
    rcases state with _ | _ | _ | _ <;> simp [tally, Sweep.countLive, JobCounts.add]
  | _ => simp [tally, Sweep.countResubmitted, JobCounts.add]

/-- Jobs may be counted in any order. -/
theorem tally_comm (f g : Fate) (c : JobCounts) : f.tally (g.tally c) = g.tally (f.tally c) := by
  rw [tally_eq f, tally_eq g c, tally_eq g (f.tally c), tally_eq f c, JobCounts.add_right_comm]

theorem expired_tally (f : Fate) (c : JobCounts) :
    (f.tally c).expired = c.expired + f.isGone.toNat := by
  cases f with
  | live state => rcases state with _ | _ | _ | _ <;> simp [tally, Sweep.countLive, isGone]
  | _ => simp [tally, Sweep.countResubmitted, isGone]

/-- A job whose resource was asked for is counted once, and once more if it is scheduled anew. -/
theorem counted_tally (f : Fate) (c : JobCounts) :
    (f.tally c).counted = c.counted + f.isKnown.toNat + f.resubmits.toNat := by
  cases f with
  | live state =>
    rcases state with _ | _ | _ | _ <;>
      simp only [tally, Sweep.countLive, isKnown, resubmits, JobCounts.counted, Bool.toNat_true,
        Bool.toNat_false] <;> omega
  | _ =>
    simp only [tally, Sweep.countResubmitted, isKnown, resubmits, JobCounts.counted,
      Bool.toNat_true, Bool.toNat_false]
    omega

/-- The counts after all of some jobs. -/
def tallyAll (c : JobCounts) (fates : List Fate) : JobCounts := fates.foldl (fun c f => f.tally c) c

theorem tallyAll_perm {fates fates' : List Fate} (h : fates.Perm fates') (c : JobCounts) :
    tallyAll c fates = tallyAll c fates' :=
  h.foldl_eq' (fun f _ g _ c => tally_comm g f c) c

theorem expired_tallyAll (fates : List Fate) (c : JobCounts) :
    (tallyAll c fates).expired = c.expired + fates.countP isGone := by
  induction fates generalizing c with
  | nil => simp [tallyAll]
  | cons f fates ih =>
    have hrest := ih (f.tally c)
    rw [expired_tally] at hrest
    rw [tallyAll, List.foldl_cons, ← tallyAll, hrest, List.countP_cons]
    cases f.isGone with
    | false => simp
    | true => simp only [Bool.toNat_true, if_true]; omega

theorem counted_tallyAll (fates : List Fate) (c : JobCounts) :
    (tallyAll c fates).counted =
      c.counted + fates.countP isKnown + fates.countP resubmits := by
  induction fates generalizing c with
  | nil => simp [tallyAll]
  | cons f fates ih =>
    have hrest := ih (f.tally c)
    rw [counted_tally] at hrest
    rw [tallyAll, List.foldl_cons, ← tallyAll, hrest, List.countP_cons, List.countP_cons]
    cases f.isKnown <;> cases f.resubmits <;> simp <;> omega

end Fate

/-- The surroundings of a pass: the reading of the clock, the answers about resources, and the order
in which the queued jobs are listed. -/
structure Survey where
  now : Int
  owner : OwnerKey → Except Fault (Option Resource)
  listed : List Job

/-- What a pass works on: the manager, the events made known, the counts published, and what was
started, each time some jobs that are carried out one after another. -/
structure Scene where
  manager : Manager
  published : List (Resource × Event)
  gauges : List JobCounts
  reruns : List (List Job)

namespace Survey

variable (v : Survey)

def instant : Instant := Instant.ofNanos v.now

/-- How the surroundings answer; a pass writes no status and asks for no id. -/
def answer : (c : DeskCall) → Scene → c.Reply × Scene
  | .store (.fetch key), s => (v.owner key, s)
  | .store (.patchStatus _ _ _), s => (.ok (), s)
  | .store (.publish r e), s => ((), { s with published := s.published ++ [(r, e)] })
  | .manager .snapshot, s => (v.listed, s)
  | .manager c, s =>
    ((s.manager.answer v.instant c).1, { s with manager := (s.manager.answer v.instant c).2 })
  | .freshId _ _, s => ("", s)
  | .publishCounts counts, s => ((), { s with gauges := s.gauges ++ [counts] })
  | .startSweep, s => ((), s)
  | .startReruns jobs, s => ((), { s with reruns := s.reruns ++ [jobs] })

/-- What a visit finds about a job. -/
def fate (m : Manager) (job : Job) : Fate :=
  match v.owner job.owner with
  | .error _ => .unknown
  | .ok none => .gone
  | .ok (some r) =>
    match m.engine.agenda.find v.instant job.id with
    | .found => .live (Sweep.stateIn r job.id)
    | .outOfDate missed => .overdue r missed
    | .notFound => .lost

/-- The manager after a visit. -/
def settle (m : Manager) (job : Job) : Manager := (v.fate m job).enact v.instant job m

/-- What is remembered about resources is what the surroundings answer. -/
def Knows (owners : List (OwnerKey × Option Resource)) : Prop :=
  ∀ p ∈ owners, v.owner p.1 = .ok p.2

variable {v}

theorem run_ownerOf {s : Sweep} (h : v.Knows s.owners) (key : OwnerKey) (scene : Scene) :
    ∃ owners, v.Knows owners ∧ (s.ownerOf key).run v.answer scene =
      (((v.owner key).toOption, { s with owners := owners }), scene) := by
  unfold Sweep.ownerOf
  split
  · rename_i known hknown
    have hkey := List.find?_some hknown
    have hanswer := h known (List.mem_of_find?_eq_some hknown)
    simp only [decide_eq_true_eq] at hkey
    refine ⟨s.owners, h, ?_⟩
    rw [← hkey, hanswer]
    rfl
  · rw [Procedure.run_seq]
    have hfetch : (Desk.fetch key).run v.answer scene = (v.owner key, scene) := rfl
    rw [hfetch]
    cases hanswer : v.owner key with
    | ok r => exact ⟨(key, r) :: s.owners, List.forall_mem_cons.2 ⟨hanswer, h⟩, rfl⟩
    | error e => exact ⟨s.owners, h, rfl⟩

/-- A visit counts, makes known and does what the fate of the job asks for. -/
theorem run_visit {s : Sweep} (h : v.Knows s.owners) (job : Job) (scene : Scene) :
    ∃ owners, v.Knows owners ∧ (s.visit job).run v.answer scene =
      (⟨(v.fate scene.manager job).tally s.counts, owners,
          s.reruns ++ ((v.fate scene.manager job).missed job).map Missed.rerun⟩,
        { scene with
          manager := v.settle scene.manager job
          published := scene.published ++
            ((v.fate scene.manager job).missed job).map Missed.report }) := by
  obtain ⟨owners, howners, hrun⟩ := run_ownerOf h job.owner scene
  refine ⟨owners, howners, ?_⟩
  rw [Sweep.visit, Procedure.run_seq, hrun]
  unfold settle fate
  cases v.owner job.owner with
  | error e =>
    simp only [Except.toOption, Fate.tally, Fate.missed, Fate.enact, List.map_nil, List.append_nil]
    rfl
  | ok found =>
    cases found with
    | none =>
      simp only [Except.toOption, Fate.tally, Fate.missed, Fate.enact, List.map_nil,
        List.append_nil]
      rfl
    | some r =>
      simp only [Except.toOption, Sweep.inspect, Procedure.run_seq]
      have hfind : (Desk.find job.id).run v.answer scene =
          (scene.manager.engine.agenda.find v.instant job.id, scene) := rfl
      rw [hfind]
      cases scene.manager.engine.agenda.find v.instant job.id with
      | found =>
        simp only [Fate.tally, Fate.missed, Fate.enact, List.map_nil, List.append_nil]
        rfl
      | outOfDate missed => rfl
      | notFound =>
        simp only [Fate.tally, Fate.missed, Fate.enact, List.map_nil, List.append_nil]
        rfl

/-! ### The visits of a pass one after the other -/

/-- The manager after some visits. -/
def settleAll (v : Survey) (m : Manager) (jobs : List Job) : Manager := jobs.foldl v.settle m

theorem orderly_settle (v : Survey) {m : Manager} (h : m.Orderly) (job : Job) :
    (v.settle m job).Orderly := by
  unfold settle
  cases v.fate m job with
  | gone => exact (h.answer v.instant (.delete job.id)).answer v.instant (.dropComplaint job.owner)
  | overdue r missed => exact h.answer v.instant (.resubmit job.id)
  | lost => exact h.answer v.instant (.resubmit job.id)
  | _ => exact h

/-- Whether two managers do by the same rules and say the same about an id. -/
structure Twin (m m' : Manager) (id : String) : Prop where
  same : m.SameAt m' id
  zone : m'.engine.agenda.zone = m.engine.agenda.zone
  staleness : m'.engine.agenda.staleness = m.engine.agenda.staleness

theorem Twin.refl (m : Manager) (id : String) : Twin m m id := ⟨.refl m id, rfl, rfl⟩

theorem Twin.trans {m m' m'' : Manager} {id : String} (h : Twin m m' id) (h' : Twin m' m'' id) :
    Twin m m'' id :=
  ⟨h.same.trans h'.same, h'.zone.trans h.zone, h'.staleness.trans h.staleness⟩

theorem Twin.symm {m m' : Manager} {id : String} (h : Twin m m' id) : Twin m' m id :=
  ⟨⟨h.same.1.symm, h.same.2.symm⟩, h.zone.symm, h.staleness.symm⟩

theorem Twin.find {m m' : Manager} {id : String} (h : Twin m m' id) (now : Instant) :
    m'.engine.agenda.find now id = m.engine.agenda.find now id := by
  simp only [Agenda.find, h.same.2, h.staleness]

theorem rules_drop (m : Manager) (id : String) :
    (m.drop id).engine.agenda.zone = m.engine.agenda.zone ∧
      (m.drop id).engine.agenda.staleness = m.engine.agenda.staleness := by
  simp only [Manager.drop, Engine.remove]
  split <;> exact ⟨rfl, rfl⟩

/-- A visit leaves all other jobs alone. -/
theorem twin_settle (v : Survey) {m : Manager} (hm : m.Orderly) {job : Job} {id : String}
    (h : id ≠ job.id) : Twin m (v.settle m job) id := by
  have hresubmit : Twin m (m.resubmit v.instant job.id).2 id := by
    rcases m.resubmit_eq v.instant job.id with heq | ⟨queued, s, hqueued, _, heq⟩
    · rw [heq]
      exact .refl m id
    · rw [heq]
      have hne : id ≠ queued.id := fun heq => h (heq.trans (hm.lockstep.keyed _ queued hqueued))
      exact ⟨⟨rfl, by simp only [Table.get?_insert, hne, if_false]⟩, rfl, rfl⟩
  unfold settle
  cases v.fate m job with
  | gone =>
    obtain ⟨hzone, hstaleness⟩ := rules_drop m job.id
    have hsame : m.SameAt (m.drop job.id) id := Manager.sameAt_drop h
    exact ⟨hsame, hzone, hstaleness⟩
  | overdue r missed => exact hresubmit
  | lost => exact hresubmit
  | _ => exact .refl m id

theorem fate_twin {m m' : Manager} {job : Job} (h : Twin m m' job.id) :
    v.fate m' job = v.fate m job := by
  simp only [fate, h.find]

/-- What a visit makes of a queued job depends only on what the manager says about it. -/
theorem settle_twin {m m' : Manager} (hm : m.Orderly) {job : Job}
    (hjob : m.queue.get? job.id = some job) (h : Twin m m' job.id) :
    Twin (v.settle m job) (v.settle m' job) job.id := by
  obtain ⟨e, _, _, hparse⟩ := hm.exists_entry hjob
  have hresubmit :
      Twin (m.resubmit v.instant job.id).2 (m'.resubmit v.instant job.id).2 job.id := by
    rw [Manager.resubmit_of_queued hjob hparse,
      Manager.resubmit_of_queued (h.same.1.trans hjob) hparse]
    refine ⟨⟨h.same.1, ?_⟩, h.zone, h.staleness⟩
    simp only [Table.get?_insert, if_true, h.zone]
  unfold settle
  rw [fate_twin h]
  cases v.fate m job with
  | gone =>
    obtain ⟨hzone, hstaleness⟩ := rules_drop m job.id
    obtain ⟨hzone', hstaleness'⟩ := rules_drop m' job.id
    refine ⟨⟨?_, ?_⟩, (hzone'.trans h.zone).trans hzone.symm,
      (hstaleness'.trans h.staleness).trans hstaleness.symm⟩
    · exact (Manager.get?_drop m' _ _).trans (by rw [Fate.enact, Manager.dropComplaint,
        Manager.get?_drop, if_pos rfl, if_pos rfl])
    · exact (Engine.get?_remove m'.engine _).trans (Engine.get?_remove m.engine _).symm
  | overdue r missed => exact hresubmit
  | lost => exact hresubmit
  | _ => exact h

/-- Whether some jobs are queued, each listed once, in a manager that is in order. -/
structure Visitable (m : Manager) (jobs : List Job) : Prop where
  orderly : m.Orderly
  distinct : (jobs.map Job.id).Nodup
  queued : ∀ job ∈ jobs, m.queue.get? job.id = some job

/-- What is left to visit after one visit, about which that visit has changed nothing. -/
theorem Visitable.tail {m : Manager} {job : Job} {jobs : List Job} (h : Visitable m (job :: jobs))
    (v : Survey) :
    Visitable (v.settle m job) jobs ∧ ∀ job' ∈ jobs, Twin m (v.settle m job) job'.id := by
  obtain ⟨hjob, hdistinct⟩ := List.nodup_cons.1 h.distinct
  have htwin : ∀ job' ∈ jobs, Twin m (v.settle m job) job'.id := fun job' hjob' =>
    twin_settle v h.orderly fun heq => hjob (heq ▸ List.mem_map_of_mem hjob')
  refine ⟨⟨orderly_settle v h.orderly job, hdistinct, fun job' hjob' => ?_⟩, htwin⟩
  exact (htwin job' hjob').same.1.trans (h.queued job' (List.mem_cons_of_mem _ hjob'))

/-- Visits of other jobs change nothing about a job. -/
theorem twin_settleAll {m : Manager} (hm : m.Orderly) {jobs : List Job} {id : String}
    (h : ∀ job ∈ jobs, id ≠ job.id) : Twin m (v.settleAll m jobs) id := by
  induction jobs generalizing m with
  | nil => exact .refl m id
  | cons job jobs ih =>
    obtain ⟨hjob, hjobs⟩ := List.forall_mem_cons.1 h
    exact (twin_settle v hm hjob).trans (ih (orderly_settle v hm job) hjobs)

/-- After all visits a job is as its own visit alone would have left it. -/
theorem settleAll_twin {m : Manager} {jobs : List Job} (h : Visitable m jobs) {job : Job}
    (hjob : job ∈ jobs) : Twin (v.settle m job) (v.settleAll m jobs) job.id := by
  induction jobs generalizing m with
  | nil => exact absurd hjob List.not_mem_nil
  | cons first jobs ih =>
    obtain ⟨hrest, htwin⟩ := h.tail v
    rcases List.mem_cons.1 hjob with rfl | hjob
    · obtain ⟨hfirst, _⟩ := List.nodup_cons.1 h.distinct
      exact twin_settleAll hrest.orderly fun job' hjob' heq =>
        hfirst (heq ▸ List.mem_map_of_mem hjob')
    · have hqueued := h.queued job (List.mem_cons_of_mem _ hjob)
      exact (settle_twin h.orderly hqueued (htwin job hjob)).trans (ih hrest hjob)

/-- The jobs found out of date, as they are listed. -/
def missedAll (v : Survey) (m : Manager) (jobs : List Job) : List Missed :=
  jobs.flatMap fun job => (v.fate m job).missed job

/-- The visits come to what the fates say that the jobs had at the start. -/
theorem run_visitAll {s : Sweep} (h : v.Knows s.owners) {jobs : List Job} (scene : Scene)
    (hjobs : Visitable scene.manager jobs) :
    ∃ owners, (s.visitAll jobs).run v.answer scene =
      (⟨Fate.tallyAll s.counts (jobs.map (v.fate scene.manager)), owners,
          s.reruns ++ (v.missedAll scene.manager jobs).map Missed.rerun⟩,
        { scene with
          manager := v.settleAll scene.manager jobs
          published := scene.published ++
            (v.missedAll scene.manager jobs).map Missed.report }) := by
  induction jobs generalizing s scene with
  | nil =>
    refine ⟨s.owners, ?_⟩
    simp only [missedAll, List.flatMap_nil, List.map_nil, List.append_nil]
    rfl
  | cons job jobs ih =>
    obtain ⟨hrest, htwin⟩ := hjobs.tail v
    obtain ⟨owners, howners, hvisit⟩ := run_visit h job scene
    have hfates : ∀ job' ∈ jobs,
        v.fate (v.settle scene.manager job) job' = v.fate scene.manager job' :=
      fun job' hjob' => fate_twin (htwin job' hjob')
    have hmissed : v.missedAll (v.settle scene.manager job) jobs =
        v.missedAll scene.manager jobs := by
      rw [missedAll, missedAll, List.flatMap_def, List.flatMap_def]
      exact congrArg List.flatten (List.map_congr_left fun job' hjob' => by rw [hfates job' hjob'])
    obtain ⟨owners', hrun⟩ := ih (s := ⟨_, owners, _⟩) howners
      { scene with
        manager := v.settle scene.manager job
        published := scene.published ++
          ((v.fate scene.manager job).missed job).map Missed.report } hrest
    refine ⟨owners', ?_⟩
    rw [Sweep.visitAll, Procedure.run_seq, hvisit, hrun, hmissed, List.map_congr_left hfates]
    simp only [missedAll, List.flatMap_cons, List.map_append, List.append_assoc]
    rfl

/-! ### What is left after the visits -/

/-- Whether some jobs are the queued ones, each once. -/
structure Lists (m : Manager) (jobs : List Job) : Prop where
  distinct : (jobs.map Job.id).Nodup
  mem_iff : ∀ job, job ∈ jobs ↔ m.queue.get? job.id = some job

theorem lists_of_perm {m : Manager} (hm : m.Lockstep) {jobs : List Job}
    (h : jobs.Perm m.queue.values) : Lists m jobs := by
  have hids : m.queue.values.map Job.id = m.queue.keys := Table.values_map hm.keyed
  refine ⟨?_, fun job => ?_⟩
  · rw [(h.map Job.id).nodup_iff, hids]
    exact m.queue.distinct
  · rw [h.mem_iff, Table.mem_values]
    constructor
    · rintro ⟨id, hid⟩
      exact (hm.keyed id job hid).symm ▸ hid
    · exact fun hjob => ⟨job.id, hjob⟩

/-- What becomes of an engine, apart from its entries, if it may have been woken. -/
structure Stirred (e e' : Engine Job) (woken : Bool) : Prop where
  zone : e'.agenda.zone = e.agenda.zone
  staleness : e'.agenda.staleness = e.agenda.staleness
  loop : e'.loop = e.loop
  woken : e'.woken = (e.woken || woken)

theorem stirred_settle {m : Manager} (hm : m.Orderly) {job : Job}
    (hjob : m.queue.get? job.id = some job) :
    Stirred m.engine (v.settle m job).engine (v.fate m job).stirs := by
  obtain ⟨e, he, _, hparse⟩ := hm.exists_entry hjob
  have hresubmit : Stirred m.engine (m.resubmit v.instant job.id).2.engine true := by
    rw [Manager.resubmit_of_queued hjob hparse]
    exact ⟨rfl, rfl, rfl, (Bool.or_true _).symm⟩
  unfold settle
  cases v.fate m job with
  | gone =>
    have hpresent : m.engine.agenda.entries.contains job.id = true := by
      rw [Table.contains, he, Option.isSome_some]
    simp only [Fate.enact, Manager.dropComplaint, Manager.drop, Engine.remove, hpresent, if_true,
      Fate.stirs]
    exact ⟨rfl, rfl, rfl, (Bool.or_true _).symm⟩
  | overdue r missed => exact hresubmit
  | lost => exact hresubmit
  | unknown => exact ⟨rfl, rfl, rfl, (Bool.or_false _).symm⟩
  | live state => exact ⟨rfl, rfl, rfl, (Bool.or_false _).symm⟩

theorem size_settle {m : Manager} {job : Job} (hjob : m.queue.get? job.id = some job) :
    (v.settle m job).queue.size + (v.fate m job).isGone.toNat = m.queue.size := by
  have hresubmit : (m.resubmit v.instant job.id).2.queue = m.queue := by
    rcases m.resubmit_eq v.instant job.id with heq | ⟨_, _, _, _, heq⟩ <;> rw [heq]
  unfold settle
  cases v.fate m job with
  | gone => exact Table.size_erase hjob
  | overdue r missed => exact congrArg Table.size hresubmit
  | lost => exact congrArg Table.size hresubmit
  | _ => rfl

/-- What becomes of the engine and of the size of the queue. -/
theorem settleAll_spec {m : Manager} {jobs : List Job} (h : Visitable m jobs) :
    Stirred m.engine (v.settleAll m jobs).engine ((jobs.map (v.fate m)).any Fate.stirs) ∧
      (v.settleAll m jobs).queue.size + (jobs.map (v.fate m)).countP Fate.isGone =
        m.queue.size := by
  induction jobs generalizing m with
  | nil => exact ⟨⟨rfl, rfl, rfl, (Bool.or_false _).symm⟩, rfl⟩
  | cons job jobs ih =>
    obtain ⟨hrest, htwin⟩ := h.tail v
    have hfates : ∀ job' ∈ jobs, v.fate (v.settle m job) job' = v.fate m job' :=
      fun job' hjob' => fate_twin (htwin job' hjob')
    have hjob := h.queued job List.mem_cons_self
    have hfirst := stirred_settle (v := v) h.orderly hjob
    have hsize := size_settle (v := v) hjob
    obtain ⟨hlater, hsize'⟩ := ih hrest
    rw [List.map_congr_left hfates] at hlater hsize'
    refine ⟨⟨hlater.zone.trans hfirst.zone, hlater.staleness.trans hfirst.staleness,
      hlater.loop.trans hfirst.loop, ?_⟩, ?_⟩
    · rw [List.map_cons, List.any_cons, ← Bool.or_assoc, ← hfirst.woken]
      exact hlater.woken
    · have hgone : (if (v.fate m job).isGone = true then 1 else 0) =
          (v.fate m job).isGone.toNat := by
        cases (v.fate m job).isGone <;> rfl
      rw [List.map_cons, List.countP_cons, hgone]
      show (v.settleAll (v.settle m job) jobs).queue.size + _ = _
      omega

/-- The jobs to be run once more, in the order in which they were missed. -/
def missedInOrder (v : Survey) (m : Manager) (jobs : List Job) : List Missed :=
  (v.missedAll m jobs).mergeSort fun a b => decide (a.time ≤ b.time)

theorem rerunOrder_eq (s : Sweep) (xs : List Missed) (h : s.reruns = xs.map Missed.rerun) :
    s.rerunOrder = (xs.mergeSort fun a b => decide (a.time ≤ b.time)).map Missed.job := by
  have hsort := List.map_mergeSort (f := Missed.rerun) (l := xs)
    (r := fun a b => decide (a.time ≤ b.time)) (s := fun a b => decide (a.1 ≤ b.1))
    fun _ _ _ _ => rfl
  rw [Sweep.rerunOrder, h, ← hsort, List.map_map]
  rfl

/-- A pass that nothing comes between. -/
def pass (v : Survey) (m : Manager) : JobCounts × Scene := sweep.run v.answer ⟨m, [], [], []⟩

/-- What is left of a pass after its visits. -/
theorem pass_eq {m : Manager} (h : Visitable m v.listed) :
    let counts := { Fate.tallyAll {} (v.listed.map (v.fate m)) with
      total := (v.settleAll m v.listed).queue.size }
    let order := (v.missedInOrder m v.listed).map Missed.job
    v.pass m =
      (counts, ⟨v.settleAll m v.listed, (v.missedAll m v.listed).map Missed.report, [counts],
        if order = [] then [] else [order]⟩) := by
  intro counts order
  obtain ⟨owners, hvisits⟩ := run_visitAll (v := v) (s := {})
    (fun _ hp => absurd hp List.not_mem_nil) ⟨m, [], [], []⟩ h
  have horder : Sweep.rerunOrder ⟨Fate.tallyAll {} (v.listed.map (v.fate m)), owners,
      [] ++ (v.missedAll m v.listed).map Missed.rerun⟩ = order := rerunOrder_eq _ _ rfl
  rw [pass, sweep, Procedure.run_seq]
  have hsnapshot : Desk.snapshot.run v.answer ⟨m, [], [], []⟩ = (v.listed, ⟨m, [], [], []⟩) := rfl
  rw [hsnapshot, Procedure.run_seq, hvisits]
  simp only [Procedure.run_seq, horder]
  clear_value order
  cases order with
  | nil => rfl
  | cons job jobs => rfl

/-! ### The outcome of a pass -/

/-- What a pass comes to. -/
structure Collected (v : Survey) (m : Manager) (counts : JobCounts) (s : Scene) : Prop where
  /-- No job of a resource that is gone is queued or scheduled. -/
  cleared : ∀ id job, (s.manager.queue.get? id = some job ∨
      ∃ e, s.manager.engine.agenda.entries.get? id = some e ∧ e.job = job) →
    v.owner job.owner ≠ .ok none
  /-- The jobs of a resource that is there stay queued and are scheduled as they should be. -/
  scheduled : ∀ id job r, m.queue.get? id = some job → v.owner job.owner = .ok (some r) →
    s.manager.queue.get? id = some job ∧ s.manager.engine.has id = true ∧
      s.manager.engine.agenda.find v.instant id = .found
  /-- No job is queued that was not. -/
  queued : ∀ id job, s.manager.queue.get? id = some job → m.queue.get? id = some job
  /-- The jobs of a resource that could not be asked for are as they were. -/
  untouched : ∀ id job e, m.queue.get? id = some job → v.owner job.owner = .error e →
    m.SameAt s.manager id
  /-- Every job that was out of date is made known once and run once more, one after another in the
  order in which they were missed. -/
  reruns : ∃ missed : List Missed,
    missed.Pairwise (fun a b => a.time ≤ b.time) ∧ (missed.map fun x => x.job.id).Nodup ∧
    (∀ x : Missed, x ∈ missed ↔ m.queue.get? x.job.id = some x.job ∧
      v.owner x.job.owner = .ok (some x.resource) ∧
      m.engine.agenda.find v.instant x.job.id = .outOfDate x.time) ∧
    s.reruns = (if missed = [] then [] else [missed.map Missed.job]) ∧
    s.published.Perm (missed.map Missed.report)
  total : counts.total = s.manager.queue.size
  expired : counts.expired + s.manager.queue.size = m.queue.size
  counted : counts.counted = m.queue.values.countP (fun job => (v.owner job.owner).isOk) +
    m.queue.values.countP fun job => (v.fate m job).resubmits
  gauges : s.gauges = [counts]

/-- Whether two managers differ in the order of their tables and in complaints only. -/
structure SameJobs (m m' : Manager) : Prop where
  jobs : ∀ id, m.SameAt m' id
  zone : m'.engine.agenda.zone = m.engine.agenda.zone
  staleness : m'.engine.agenda.staleness = m.engine.agenda.staleness
  loop : m'.engine.loop = m.engine.loop
  woken : m'.engine.woken = m.engine.woken

theorem find_resubmit {m : Manager} (hm : m.Orderly) (hstale : 0 ≤ m.engine.agenda.staleness)
    {job : Job} (hjob : m.queue.get? job.id = some job) :
    (m.resubmit v.instant job.id).2.engine.agenda.find v.instant job.id = .found := by
  obtain ⟨e, _, _, hparse⟩ := hm.exists_entry hjob
  rw [Manager.resubmit_of_queued hjob hparse]
  simp only [Agenda.find, Table.get?_insert, if_true]
  cases hnext : e.schedule.nextAfter m.engine.agenda.zone v.instant with
  | none => rfl
  | some t =>
    obtain ⟨hsecond, hlt⟩ := Entry.lt_of_nextAfter (Schedule.onSecond_of_parse hparse) hnext
    have hsince := Instant.ofNanos_since_neg hsecond hlt
    exact if_neg (by unfold instant; omega)

/-- The visit of a job that is queued under its id. -/
theorem settle_spec {m : Manager} (hm : m.Orderly) (hstale : 0 ≤ m.engine.agenda.staleness)
    {job : Job} (hjob : m.queue.get? job.id = some job) :
    match v.owner job.owner with
    | .error _ => v.settle m job = m
    | .ok none => (v.settle m job).queue.get? job.id = none ∧
      (v.settle m job).engine.agenda.entries.get? job.id = none
    | .ok (some _) => (v.settle m job).queue.get? job.id = some job ∧
      (v.settle m job).engine.has job.id = true ∧
      (v.settle m job).engine.agenda.find v.instant job.id = .found := by
  obtain ⟨e, he, _, hparse⟩ := hm.exists_entry hjob
  have hresubmit : (m.resubmit v.instant job.id).2.queue.get? job.id = some job ∧
      (m.resubmit v.instant job.id).2.engine.has job.id = true ∧
      (m.resubmit v.instant job.id).2.engine.agenda.find v.instant job.id = .found := by
    refine ⟨?_, ?_, find_resubmit hm hstale hjob⟩
    · rw [Manager.resubmit_of_queued hjob hparse]
      exact hjob
    · rw [Manager.resubmit_of_queued hjob hparse]
      simp only [Engine.has, Table.contains, Table.get?_insert, if_true, Option.isSome_some]
  unfold settle fate
  cases v.owner job.owner with
  | error e => rfl
  | ok found =>
    cases found with
    | none =>
      refine ⟨?_, Engine.get?_remove m.engine job.id⟩
      exact (Manager.get?_drop m job.id job.id).trans (if_pos rfl)
    | some r =>
      cases hfind : m.engine.agenda.find v.instant job.id with
      | found =>
        refine ⟨hjob, ?_, hfind⟩
        simp only [Fate.enact, Engine.has, Table.contains, he, Option.isSome_some]
      | outOfDate missed => exact hresubmit
      | notFound => exact hresubmit

theorem Lists.visitable {m : Manager} (hm : m.Orderly) {jobs : List Job} (h : Lists m jobs) :
    Visitable m jobs :=
  ⟨hm, h.distinct, fun job hjob => (h.mem_iff job).1 hjob⟩

/-- After all visits of the queued jobs an id is as the visit of the job queued under it has left
it. -/
theorem Lists.twin {m : Manager} (hm : m.Orderly) {jobs : List Job} (h : Lists m jobs)
    (id : String) :
    (∃ job, job.id = id ∧ m.queue.get? id = some job ∧
      Twin (v.settle m job) (v.settleAll m jobs) id) ∨
    m.queue.get? id = none ∧ Twin m (v.settleAll m jobs) id := by
  cases hjob : m.queue.get? id with
  | none =>
    refine .inr ⟨rfl, twin_settleAll hm fun job hmem heq => ?_⟩
    rw [heq, (h.mem_iff job).1 hmem] at hjob
    exact Option.some_ne_none job hjob
  | some job =>
    obtain rfl := hm.lockstep.keyed id job hjob
    exact .inl ⟨job, rfl, rfl, settleAll_twin (h.visitable hm) ((h.mem_iff job).2 hjob)⟩

theorem orderly_settleAll {m : Manager} (hm : m.Orderly) (jobs : List Job) :
    (v.settleAll m jobs).Orderly := by
  induction jobs generalizing m with
  | nil => exact hm
  | cons job jobs ih => exact ih (orderly_settle v hm job)

theorem mem_missed {m : Manager} {job : Job} {x : Missed} :
    x ∈ (v.fate m job).missed job ↔ x.job = job ∧ v.owner job.owner = .ok (some x.resource) ∧
      m.engine.agenda.find v.instant job.id = .outOfDate x.time := by
  unfold fate
  cases v.owner job.owner with
  | error e => simp [Fate.missed]
  | ok found =>
    cases found with
    | none => simp [Fate.missed]
    | some r =>
      cases m.engine.agenda.find v.instant job.id with
      | outOfDate time =>
        simp only [Fate.missed, List.mem_singleton, Except.ok.injEq, Option.some.injEq,
          Lookup.outOfDate.injEq]
        constructor
        · rintro rfl
          exact ⟨rfl, rfl, rfl⟩
        · rintro ⟨rfl, rfl, rfl⟩
          rfl
      | _ => simp [Fate.missed]

theorem mem_missedAll {m : Manager} {jobs : List Job} (h : Lists m jobs) (x : Missed) :
    x ∈ v.missedAll m jobs ↔ m.queue.get? x.job.id = some x.job ∧
      v.owner x.job.owner = .ok (some x.resource) ∧
      m.engine.agenda.find v.instant x.job.id = .outOfDate x.time := by
  simp only [missedAll, List.mem_flatMap, mem_missed, ← h.mem_iff]
  constructor
  · rintro ⟨job, hjob, rfl, hrest⟩
    exact ⟨hjob, hrest⟩
  · rintro ⟨hjob, hrest⟩
    exact ⟨x.job, hjob, rfl, hrest⟩

/-- A job is missed at most once. -/
theorem nodup_missedAll {m : Manager} {jobs : List Job} (h : (jobs.map Job.id).Nodup) :
    ((v.missedAll m jobs).map fun x => x.job.id).Nodup := by
  have hsub : ((v.missedAll m jobs).map fun x => x.job.id).Sublist (jobs.map Job.id) := by
    clear h
    induction jobs with
    | nil => exact .slnil
    | cons job jobs ih =>
      have hone : (((v.fate m job).missed job).map fun x => x.job.id).Sublist [job.id] := by
        cases v.fate m job with
        | overdue r time => exact List.Sublist.refl _
        | _ => exact List.nil_sublist _
      rw [missedAll, List.flatMap_cons, List.map_append]
      exact hone.append ih
  exact hsub.nodup h

theorem total_le (a b : Missed) :
    (decide (a.time ≤ b.time) || decide (b.time ≤ a.time)) = true := by
  by_cases h : a.time ≤ b.time
  · simp [h]
  · rw [Instant.le_iff_not_lt, Decidable.not_not] at h
    simp [Instant.le_of_lt h]

theorem isKnown_fate (m : Manager) (job : Job) :
    (v.fate m job).isKnown = (v.owner job.owner).isOk := by
  unfold fate
  cases v.owner job.owner with
  | error e => rfl
  | ok found =>
    cases found with
    | none => rfl
    | some r => cases m.engine.agenda.find v.instant job.id <;> rfl

/-- What is queued after all visits was queued before, for a resource that is not gone. -/
theorem queued_settleAll {m : Manager} (hm : m.Orderly) (hstale : 0 ≤ m.engine.agenda.staleness)
    {jobs : List Job} (h : Lists m jobs) {id : String} {job : Job}
    (hjob : (v.settleAll m jobs).queue.get? id = some job) :
    m.queue.get? id = some job ∧ v.owner job.owner ≠ .ok none := by
  rcases h.twin (v := v) hm id with ⟨job', rfl, hjob', htwin⟩ | ⟨hnone, htwin⟩
  · rw [htwin.same.1] at hjob
    have hspec := settle_spec (v := v) hm hstale hjob'
    cases howner : v.owner job'.owner with
    | error e =>
      rw [howner] at hspec
      rw [hspec] at hjob
      obtain rfl := Option.some.inj (hjob'.symm.trans hjob)
      exact ⟨hjob, by simp [howner]⟩
    | ok found =>
      cases found with
      | none =>
        rw [howner] at hspec
        exact absurd (hspec.1.symm.trans hjob) (Option.some_ne_none job).symm
      | some r =>
        rw [howner] at hspec
        obtain rfl := Option.some.inj (hspec.1.symm.trans hjob)
        exact ⟨hjob', by simp [howner]⟩
  · rw [htwin.same.1, hnone] at hjob
    exact absurd hjob (Option.some_ne_none job).symm

theorem counted_visits (m : Manager) (hlisted : v.listed.Perm m.queue.values) :
    (Fate.tallyAll {} (v.listed.map (v.fate m))).counted =
      m.queue.values.countP (fun job => (v.owner job.owner).isOk) +
        m.queue.values.countP fun job => (v.fate m job).resubmits := by
  have hcounted := Fate.counted_tallyAll (v.listed.map (v.fate m)) {}
  have hknown : Fate.isKnown ∘ v.fate m = fun job => (v.owner job.owner).isOk :=
    funext (isKnown_fate m)
  have hnone : JobCounts.counted {} = 0 := rfl
  rw [List.countP_map, List.countP_map, hlisted.countP_eq, hlisted.countP_eq, hknown, hnone,
    Int.zero_add] at hcounted
  exact hcounted

theorem collected {m : Manager} (hm : m.Orderly) (hstale : 0 ≤ m.engine.agenda.staleness)
    (hlisted : v.listed.Perm m.queue.values) :
    Collected v m (v.pass m).1 (v.pass m).2 := by
  have h := lists_of_perm hm.lockstep hlisted
  have htwin : ∀ id job, m.queue.get? id = some job →
      job.id = id ∧ Twin (v.settle m job) (v.settleAll m v.listed) job.id := by
    intro id job hjob
    obtain rfl := hm.lockstep.keyed id job hjob
    exact ⟨rfl, settleAll_twin (h.visitable hm) ((h.mem_iff job).2 hjob)⟩
  have hsorted := List.mergeSort_perm (v.missedAll m v.listed) fun a b => decide (a.time ≤ b.time)
  rw [pass_eq (h.visitable hm)]
  refine {
    cleared := fun id job hjob => ?_
    scheduled := fun id job r hjob howner => ?_
    queued := fun id job hjob => (queued_settleAll hm hstale h hjob).1
    untouched := fun id job e hjob howner => ?_
    reruns := ⟨v.missedInOrder m v.listed, ?_, ?_, fun x => ?_, ?_, ?_⟩
    total := rfl
    expired := ?_
    counted := counted_visits m hlisted
    gauges := rfl }
  · rcases hjob with hjob | ⟨e, he, rfl⟩
    · exact (queued_settleAll hm hstale h hjob).2
    · have hqueued := ((orderly_settleAll hm v.listed).lockstep.entries id e he).1
      exact (queued_settleAll hm hstale h hqueued).2
  · obtain ⟨rfl, htwin⟩ := htwin id job hjob
    have hspec := settle_spec (v := v) hm hstale hjob
    rw [howner] at hspec
    obtain ⟨hkept, hhas, hfind⟩ := hspec
    refine ⟨htwin.same.1.trans hkept, ?_, (htwin.find _).trans hfind⟩
    rw [Engine.has, Table.contains, htwin.same.2]
    exact hhas
  · obtain ⟨rfl, htwin⟩ := htwin id job hjob
    have hspec := settle_spec (v := v) hm hstale hjob
    have hsame := htwin.same
    rw [howner] at hspec
    rwa [hspec] at hsame
  · refine (List.pairwise_mergeSort (fun a b c hab hbc => ?_) total_le _).imp of_decide_eq_true
    exact decide_eq_true (Instant.le_trans (of_decide_eq_true hab) (of_decide_eq_true hbc))
  · exact (hsorted.map _).nodup_iff.2 (nodup_missedAll h.distinct)
  · exact hsorted.mem_iff.trans (mem_missedAll h x)
  · simp only [List.map_eq_nil_iff]
  · exact hsorted.symm.map _
  · have hexpired := Fate.expired_tallyAll (v.listed.map (v.fate m)) {}
    obtain ⟨_, hsize⟩ := settleAll_spec (v := v) (h.visitable hm)
    simp only at hexpired ⊢
    omega

/-- Two passes that list the queued jobs in different orders come to the same. -/
theorem sameJobs {m : Manager} (hm : m.Orderly) (hlisted : v.listed.Perm m.queue.values)
    {listed' : List Job} (hlisted' : listed'.Perm m.queue.values) :
    let other : Survey := { v with listed := listed' }
    (other.pass m).1 = (v.pass m).1 ∧ SameJobs (v.pass m).2.manager (other.pass m).2.manager := by
  intro other
  have h := lists_of_perm hm.lockstep hlisted
  have h' : Lists m other.listed := lists_of_perm hm.lockstep hlisted'
  have hperm : (other.listed.map (other.fate m)).Perm (v.listed.map (v.fate m)) :=
    (hlisted'.trans hlisted.symm).map (v.fate m)
  obtain ⟨hstir, hsize⟩ := settleAll_spec (v := v) (h.visitable hm)
  obtain ⟨hstir', hsize'⟩ := settleAll_spec (v := other) (h'.visitable hm)
  rw [pass_eq (v := v) (h.visitable hm), pass_eq (v := other) (h'.visitable hm)]
  refine ⟨?_, fun id => ?_, hstir'.zone.trans hstir.zone.symm,
    hstir'.staleness.trans hstir.staleness.symm, hstir'.loop.trans hstir.loop.symm, ?_⟩
  · rw [hperm.countP_eq] at hsize'
    have hsame : (other.settleAll m other.listed).queue.size =
        (v.settleAll m v.listed).queue.size := by omega
    simp only [Fate.tallyAll_perm hperm, hsame]
  · rcases h.twin (v := v) hm id with ⟨job, rfl, hjob, htwin⟩ | ⟨hnone, htwin⟩
    · rcases h'.twin (v := other) hm job.id with ⟨job', _, hjob', htwin'⟩ | ⟨hnone', _⟩
      · obtain rfl := Option.some.inj (hjob.symm.trans hjob')
        exact (htwin.symm.trans htwin').same
      · exact absurd (hnone'.symm.trans hjob) (Option.some_ne_none job).symm
    · rcases h'.twin (v := other) hm id with ⟨job', _, hjob', _⟩ | ⟨_, htwin'⟩
      · exact absurd (hnone.symm.trans hjob') (Option.some_ne_none job').symm
      · exact (htwin.symm.trans htwin').same
  · rw [hstir'.woken, hstir.woken, hperm.any_eq]

end Survey

/-- A pass that nothing comes between, in any world that can come about, at any reading of the clock
and with any answers about resources: what it comes to, and that this does not depend on the order
in which the jobs are listed. -/
theorem sweep_collects {w : World} (hw : w.Reachable)
    (hstale : 0 ≤ w.manager.engine.agenda.staleness) (v : Survey)
    (hlisted : v.listed.Perm w.manager.queue.values) :
    v.Collected w.manager (v.pass w.manager).1 (v.pass w.manager).2 ∧
      ∀ listed' : List Job, listed'.Perm w.manager.queue.values →
        let other : Survey := { v with listed := listed' }
        (other.pass w.manager).1 = (v.pass w.manager).1 ∧
          Survey.SameJobs (v.pass w.manager).2.manager (other.pass w.manager).2.manager := by
  have hm : w.manager.Orderly :=
    ⟨(World.good_of_reachable hw).lockstep, World.coherent_of_reachable hw⟩
  exact ⟨Survey.collected hm hstale hlisted, fun _ => Survey.sameJobs hm hlisted⟩

namespace World

/-- A smaller size every evening. -/
def evening : JobSpec := ⟨"evening", "0 0 20 * * *", false, 1⟩

/-- The world in which two resources were written and reconciled. -/
def twofold : World :=
  ((withWeb.write (shop evening).key (shop evening) "0").carriedOut ⟨0, 0⟩
    (task (reconcile web.key))).carriedOut ⟨0, 0⟩ (task (reconcile (shop evening).key))

theorem reachable_twofold : Reachable twofold := by
  have hwritten : Reachable (withWeb.write (shop evening).key (shop evening) "0") :=
    ((Reachable.new Zone.utc 0).step (.put web "0" List.not_mem_nil)).step
      (.put (shop evening) "0" (by decide))
  exact reachable_carriedOut (reachable_carriedOut hwritten (.inl ⟨web.key, rfl⟩) _)
    (.inl ⟨(shop evening).key, rfl⟩) _

/-- The surroundings of a pass two days later, when one of the two resources is gone. -/
def afterTwoDays (listed : List Job) : Survey where
  now := 172800 * nanosPerSecond
  owner := fun key => if key = web.key then .ok (some web) else .ok none
  listed := listed

/-- The job of the one resource is run once more, since the engine has never run; that of the other
one is dropped. -/
theorem twofold_collected :
    let v := afterTwoDays twofold.manager.queue.values.reverse
    v.Collected twofold.manager (v.pass twofold.manager).1 (v.pass twofold.manager).2 ∧
    (v.pass twofold.manager).1 = { total := 1, submitted := 1, failed := 1, expired := 1 } ∧
    (v.pass twofold.manager).2.reruns.map (·.map Job.name) = [["up"]] := by
  intro v
  have hstale : 0 ≤ twofold.manager.engine.agenda.staleness := by decide +kernel
  have hlisted : ∀ jobs jobs' : List Job, jobs.Perm jobs' → (afterTwoDays jobs).listed.Perm jobs' :=
    fun _ _ h => h
  have hcollects := sweep_collects reachable_twofold hstale v
    (hlisted _ _ (List.reverse_perm twofold.manager.queue.values))
  refine ⟨hcollects.1, ?_, ?_⟩
  · decide +kernel
  · decide +kernel

end World

end CronScale
