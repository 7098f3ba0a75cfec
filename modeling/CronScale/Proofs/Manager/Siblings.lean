import CronScale.Proofs.Manager.Turns
/-!
# Jobs of one resource do not affect each other

What a reconcile leaves of a job depends on its own declaration, on the target and the excluded days
of the resource, and on what was there for the name of the job; the jobs that are declared beside
it, those included that cannot be built, play no part. Only if the job gets a fresh id may it get
another one, since any id that was never used may be given out. So a reconcile is carried out here
for two specifications that have a job in common, and the worlds that come of it are compared
(`World.siblings_independent`).
-/

namespace CronScale

open CronScale.Calendar

theorem Job.differsFrom_id {queued : Job} {id : String} (h : queued.id = id) (job : Job)
    (id' : String) : Job.differsFrom { queued with id := id' } { job with id := id' } =
      queued.differsFrom { job with id := id } := by
  simp only [Job.differsFrom, Job.agrees, h, beq_self_eq_true]

namespace Manager

variable {m m' n n' : Manager} {id id' : String}

/-- Whether a manager says the same about an id as another one about another id, in the queue and in
the agenda. -/
structure AlikeAt (m : Manager) (id : String) (m' : Manager) (id' : String) : Prop where
  queue : m'.queue.get? id' = (m.queue.get? id).map ({ · with id := id' })
  entry : m'.engine.agenda.entries.get? id' =
    (m.engine.agenda.entries.get? id).map fun e => { e with job := { e.job with id := id' } }

theorem SameAt.alikeAt (h : m.SameAt m' id) (hm : m.Lockstep) : m.AlikeAt id m' id where
  queue := by
    rw [h.1]
    cases hjob : m.queue.get? id with
    | none => rfl
    | some job => rw [Option.map_some, ← hm.keyed id job hjob]
  entry := by
    rw [h.2]
    cases hentry : m.engine.agenda.entries.get? id with
    | none => rfl
    | some e =>
      have hid : e.job.id = id := hm.keyed id e.job (hm.entries id e hentry).1
      rw [Option.map_some, ← hid]

theorem AlikeAt.congr (h : m.AlikeAt id m' id') (hn : m.SameAt n id) (hn' : m'.SameAt n' id') :
    n.AlikeAt id n' id' where
  queue := by rw [hn'.1, h.queue, hn.1]
  entry := by rw [hn'.2, h.entry, hn.2]

theorem alikeAt_of_none (h : m.queue.get? id = none ∧ m.engine.agenda.entries.get? id = none)
    (h' : m'.queue.get? id' = none ∧ m'.engine.agenda.entries.get? id' = none) :
    m.AlikeAt id m' id' where
  queue := by rw [h.1, h'.1, Option.map_none]
  entry := by rw [h.2, h'.2, Option.map_none]

theorem AlikeAt.enter (h : m.AlikeAt id m' id')
    (hzone : m'.engine.agenda.zone = m.engine.agenda.zone) (job : Job) (now : Instant)
    (change : QueueChange) :
    (m'.enter now { job with id := id' } change).1 = (m.enter now { job with id := id } change).1 ∧
      (m.enter now { job with id := id } change).2.AlikeAt id
        (m'.enter now { job with id := id' } change).2 id' := by
  cases hparse : Schedule.parse job.schedule with
  | error e =>
    have hnot : ∀ (m : Manager) id, m.enter now { job with id := id } change =
        (.error (.unreadable e), m) := by
      intro m id
      have hupdate : m.engine.update now { job with id := id } = .error e :=
        Engine.update_error_iff.2 hparse
      simp only [Manager.enter, hupdate]
    rw [hnot m id, hnot m' id']
    exact ⟨rfl, h⟩
  | ok s =>
    have hparse : ∀ id, Schedule.parse { job with id := id }.schedule = .ok s := fun _ => hparse
    rw [m.enter_of_parse now (hparse id) change, m'.enter_of_parse now (hparse id') change]
    refine ⟨rfl, ?_, ?_⟩
    · simp only [Table.get?_insert, if_true, Option.map_some]
    · simp only [Table.get?_insert, if_true, Option.map_some, hzone]

/-- The same job is brought in in the same way under both ids. -/
theorem AlikeAt.createOrUpdate (h : m.AlikeAt id m' id') (hm : m.Lockstep)
    (hzone : m'.engine.agenda.zone = m.engine.agenda.zone) (job : Job) (now : Instant) :
    (m'.createOrUpdate now { job with id := id' }).1 =
        (m.createOrUpdate now { job with id := id }).1 ∧
      (m.createOrUpdate now { job with id := id }).2.AlikeAt id
        (m'.createOrUpdate now { job with id := id' }).2 id' := by
  simp only [Manager.createOrUpdate, h.queue]
  cases hjob : m.queue.get? id with
  | none => exact h.enter hzone job now .created
  | some queued =>
    simp only [Option.map_some, Job.differsFrom_id (hm.keyed id queued hjob)]
    split
    · exact h.enter hzone job now .updated
    · exact ⟨rfl, h⟩

end Manager

namespace Reconcile

variable {now : Instant} {key : OwnerKey} {r₁ r₂ : Resource} {j : JobSpec} {job : Job}
  {left₁ left₂ : List Condition} {g₁ g₂ g₁' g₂' : Stage} {id₁ id₂ : String}

/-- Whether two stages say the same about a job up to its id: the conditions of its name, and what
is queued and scheduled under the ids in them. -/
structure Mirrors (name : String) (g₁ g₂ : Stage) (c₁ c₂ : Condition) : Prop where
  found₁ : g₁.draft.conditions.find? (·.name == name) = some c₁
  found₂ : g₂.draft.conditions.find? (·.name == name) = some c₂
  condition : c₂ = { c₁ with jobId := c₂.jobId }
  slot : g₁.world.manager.AlikeAt c₁.jobId g₂.world.manager c₂.jobId

theorem mirrors_submit {w₁ w₂ : World} {d₁ d₂ : Draft} (hlockstep : w₁.manager.Lockstep)
    (hzone : w₂.manager.engine.agenda.zone = w₁.manager.engine.agenda.zone)
    (halike : w₁.manager.AlikeAt id₁ w₂.manager id₂) {wasRetained : Bool}
    (hretained : wasRetained = true → ∃ c, d₁.conditions.find? (·.name == j.name) = some c ∧
      d₂.conditions.find? (·.name == j.name) = some { c with jobId := id₂ } ∧ c.jobId = id₁)
    (h₁ : (submit j { job with id := id₁ } now wasRetained d₁).AtOnce now w₁ g₁'.world
      g₁'.draft)
    (h₂ : (submit j { job with id := id₂ } now wasRetained d₂).AtOnce now w₂ g₂'.world
      g₂'.draft) :
    ∃ c₁ c₂, Mirrors j.name g₁' g₂' c₁ c₂ ∧ c₁.jobId = id₁ ∧ c₂.jobId = id₂ := by
  obtain ⟨hworld₁, hdraft₁⟩ := atOnce_submit.1 h₁
  obtain ⟨hworld₂, hdraft₂⟩ := atOnce_submit.1 h₂
  obtain ⟨hreply, hslot⟩ := halike.createOrUpdate hlockstep hzone job now
  rw [hreply] at hdraft₂
  have hslot : g₁'.world.manager.AlikeAt id₁ g₂'.world.manager id₂ := by
    rw [hworld₁, hworld₂]
    exact hslot
  have hput : ∀ state message, g₁'.draft = d₁.put (conditionOf j id₁ state now message) →
      g₂'.draft = d₂.put (conditionOf j id₂ state now message) →
        ∃ c₁ c₂, Mirrors j.name g₁' g₂' c₁ c₂ ∧ c₁.jobId = id₁ ∧ c₂.jobId = id₂ := by
    intro state message hput₁ hput₂
    refine ⟨conditionOf j id₁ state now message, conditionOf j id₂ state now message,
      ⟨?_, ?_, rfl, hslot⟩, rfl, rfl⟩
    · rw [hput₁]
      exact find?_put _ rfl
    · rw [hput₂]
      exact find?_put _ rfl
  cases hr : (w₁.manager.createOrUpdate now { job with id := id₁ }).1 with
  | error e =>
    rw [hr] at hdraft₁ hdraft₂
    exact hput _ _ hdraft₁ hdraft₂
  | ok change =>
    rw [hr] at hdraft₁ hdraft₂
    simp only [submitted] at hdraft₁ hdraft₂
    by_cases hsame : change = .unchanged ∧ wasRetained
    · rw [if_pos hsame] at hdraft₁ hdraft₂
      obtain ⟨c, hfound₁, hfound₂, rfl⟩ := hretained hsame.2
      exact ⟨c, _, ⟨hdraft₁ ▸ hfound₁, hdraft₂ ▸ hfound₂, rfl, hslot⟩, rfl, rfl⟩
    · rw [if_neg hsame] at hdraft₁ hdraft₂
      exact hput _ _ hdraft₁ hdraft₂

/-- A job with a retained condition keeps its id. -/
theorem mirrors_settleKept {kept : Condition} (h₁ : g₁.Sound r₁)
    (hsame : g₁.Same key j.name g₂)
    (hfound : g₁.draft.conditions.find? (·.name == j.name) = some kept)
    (hissued : g₁.world.issued kept.jobId = some (key, j.name))
    (ht₁ : (settleKept j job kept now g₁.draft).AtOnce now g₁.world g₁'.world g₁'.draft)
    (ht₂ : (settleKept j job kept now g₂.draft).AtOnce now g₂.world g₂'.world g₂'.draft) :
    ∃ c₁ c₂, Mirrors j.name g₁' g₂' c₁ c₂ ∧ c₁.jobId = c₂.jobId := by
  have hfound₂ := hsame.found.trans hfound
  unfold settleKept at ht₁ ht₂
  by_cases hran : (j.isRunOnce && kept.state.isTerminal) = true
  · rw [if_pos hran] at ht₁ ht₂
    obtain ⟨hworld₁, hdraft₁⟩ := Procedure.atOnce_manager.1 ht₁
    obtain ⟨hworld₂, hdraft₂⟩ := Procedure.atOnce_manager.1 ht₂
    have hgone : ∀ m : Manager, (m.drop kept.jobId).queue.get? kept.jobId = none ∧
        (m.drop kept.jobId).engine.agenda.entries.get? kept.jobId = none := by
      refine fun m => ⟨by rw [Manager.get?_drop, if_pos rfl], ?_⟩
      exact (m.entries_dropAll [kept.jobId] kept.jobId).trans (if_pos List.mem_cons_self)
    refine ⟨kept, kept, ⟨hdraft₁ ▸ hfound, hdraft₂ ▸ hfound₂, rfl, ?_⟩, rfl⟩
    rw [hworld₁, hworld₂]
    exact Manager.alikeAt_of_none (hgone _) (hgone _)
  · rw [if_neg hran] at ht₁ ht₂
    have halike := (hsame.world.same _ hissued).alikeAt h₁.good.lockstep
    obtain ⟨c₁, c₂, hmirrors, hid₁, hid₂⟩ := mirrors_submit h₁.good.lockstep hsame.world.zone
      halike (fun _ => ⟨kept, hfound, hfound₂, rfl⟩) ht₁ ht₂
    exact ⟨c₁, c₂, hmirrors, hid₁.trans hid₂.symm⟩

/-- A job without a retained condition gets the same id, or a fresh one. -/
theorem mirrors_settleNew (h₁ : g₁.Sound r₁) (h₂ : g₂.Sound r₂) (hkey₁ : r₁.key = key)
    (hsame : g₁.Same key j.name g₂)
    (ht₁ : (settleNew key j job now false g₁.draft).AtOnce now g₁.world g₁'.world g₁'.draft)
    (ht₂ : (settleNew key j job now false g₂.draft).AtOnce now g₂.world g₂'.world g₂'.draft) :
    ∃ c₁ c₂, Mirrors j.name g₁' g₂' c₁ c₂ ∧ (c₁.jobId = c₂.jobId ∨
      g₁.world.issued c₁.jobId = none ∧ g₂.world.issued c₂.jobId = none) := by
  obtain ⟨⟨id₁, d₁⟩, w₁, hchosen₁, hsubmit₁⟩ := Procedure.atOnce_seq.1 ht₁
  obtain ⟨⟨id₂, d₂⟩, w₂, hchosen₂, hsubmit₂⟩ := Procedure.atOnce_seq.1 ht₂
  have hchosen : chosenId g₂.world.manager key g₂.draft j.name =
      chosenId g₁.world.manager key g₁.draft j.name := by
    rw [chosenId, chosenId, hsame.reusable, Manager.queuedId_eq, Manager.queuedId_eq,
      hsame.world.jobs]
  have hmirrors : w₁.manager = g₁.world.manager → w₂.manager = g₂.world.manager →
      g₁.world.manager.AlikeAt id₁ g₂.world.manager id₂ →
        ∃ c₁ c₂, Mirrors j.name g₁' g₂' c₁ c₂ ∧ c₁.jobId = id₁ ∧ c₂.jobId = id₂ := by
    intro hw₁ hw₂ halike
    refine mirrors_submit ?_ ?_ ?_ (fun h => absurd h (by decide)) hsubmit₁ hsubmit₂
    · rw [hw₁]
      exact h₁.good.lockstep
    · rw [hw₁, hw₂]
      exact hsame.world.zone
    · rw [hw₁, hw₂]
      exact halike
  rcases atOnce_chooseId hchosen₁ with ⟨rfl, hid₁⟩ | ⟨hnone₁, hfresh₁, rfl⟩
  · rcases atOnce_chooseId hchosen₂ with ⟨rfl, hid₂⟩ | ⟨hnone₂, _, _⟩
    · obtain rfl : id₂ = id₁ := Option.some.inj (hid₂.symm.trans (hchosen.trans hid₁))
      have hissued : g₁.world.issued id₂ = some (key, j.name) := by
        rcases Option.or_eq_some_iff.1 hid₁ with hput | ⟨_, hqueued⟩
        · exact hkey₁ ▸ (h₁.draft.reusable _ (mem_of_reusableId hput)).2
        · rw [Manager.queuedId_eq] at hqueued
          obtain ⟨job', hjob', rfl⟩ := Option.map_eq_some_iff.1 hqueued
          exact h₁.good.issued_of_jobsNamed (List.mem_of_mem_head? hjob')
      obtain ⟨c₁, c₂, hmirrors, hid₁, hid₂⟩ :=
        hmirrors rfl rfl ((hsame.world.same _ hissued).alikeAt h₁.good.lockstep)
      exact ⟨c₁, c₂, hmirrors, .inl (hid₁.trans hid₂.symm)⟩
    · exact absurd (hid₁.symm.trans (hchosen.symm.trans hnone₂)) (Option.some_ne_none _)
  · rcases atOnce_chooseId hchosen₂ with ⟨rfl, hid₂⟩ | ⟨_, hfresh₂, rfl⟩
    · exact absurd (hid₂.symm.trans (hchosen.trans hnone₁)) (Option.some_ne_none _)
    · have hnone := Manager.alikeAt_of_none (h₁.good.absent_of_fresh hfresh₁)
        (h₂.good.absent_of_fresh hfresh₂)
      obtain ⟨c₁, c₂, hmirrors, hid₁, hid₂⟩ := hmirrors rfl rfl hnone
      exact ⟨c₁, c₂, hmirrors, .inr ⟨hid₁ ▸ hfresh₁, hid₂ ▸ hfresh₂⟩⟩

/-- What is under the id of a sound condition is the same in worlds that are the same for its
name. -/
theorem Stage.Same.alikeAt {t : Option TargetSpec} {c : Condition} (hsame : g₁.Same key c.name g₂)
    (h₁ : g₁.Sound r₁) (h₂ : g₂.Sound r₂) (hc : c.Sound g₁.world.issued key t) :
    g₁.world.manager.AlikeAt c.jobId g₂.world.manager c.jobId :=
  (hsame.world.sameAt h₁.good h₂.good hc).alikeAt h₁.good.lockstep

theorem mirrors_refuse {e : Fault} {kept : Option Condition} {t : Option TargetSpec}
    (h₁ : g₁.Sound r₁) (h₂ : g₂.Sound r₂) (hsame : g₁.Same key j.name g₂)
    (hfound : g₁.draft.conditions.find? (·.name == j.name) = kept)
    (hkept : ∀ c, kept = some c → c.Sound g₁.world.issued key t)
    (hworld₁ : g₁'.world = g₁.world) (hdraft₁ : g₁'.draft = refuse j e now kept g₁.draft)
    (hworld₂ : g₂'.world = g₂.world) (hdraft₂ : g₂'.draft = refuse j e now kept g₂.draft) :
    ∃ c₁ c₂, Mirrors j.name g₁' g₂' c₁ c₂ ∧ c₁.jobId = c₂.jobId := by
  simp only [refuse] at hdraft₁ hdraft₂
  generalize hmessage : buildFailure j.name e = message at hdraft₁ hdraft₂
  by_cases hsaid : (kept.any fun c => c.state == .failed && c.message == message) = true
  · rw [if_pos hsaid] at hdraft₁ hdraft₂
    obtain ⟨c, rfl, _⟩ := (Option.any_eq_true _ _).1 hsaid
    have hname := (find?_eq_some_name hfound).2
    refine ⟨c, c, ⟨hdraft₁ ▸ hfound, hdraft₂ ▸ hsame.found.trans hfound, rfl, ?_⟩, rfl⟩
    rw [hworld₁, hworld₂]
    exact (hname.symm ▸ hsame).alikeAt h₁ h₂ (hkept c rfl)
  · rw [if_neg hsaid] at hdraft₁ hdraft₂
    have hput : ∀ d : Draft, (d.put (conditionOf j "" .failed now message)).conditions.find?
        (·.name == j.name) = some _ := fun d => find?_put d rfl
    refine ⟨_, _, ⟨hdraft₁ ▸ hput _, hdraft₂ ▸ hput _, rfl, ?_⟩, rfl⟩
    rw [hworld₁, hworld₂]
    exact Manager.alikeAt_of_none (h₁.good.absent_of_fresh h₁.good.unnamed)
      (h₂.good.absent_of_fresh h₂.good.unnamed)

/-- The turn of a job comes to the same in stages that are the same for its name, up to the choice
of a fresh id. -/
theorem mirrors_settleJob (h₁ : g₁.Sound r₁) (h₂ : g₂.Sound r₂) (hkey₁ : r₁.key = key)
    (hsame : g₁.Same key j.name g₂) (hbuild : Job.build r₂ j "" = Job.build r₁ j "")
    (hleft : left₂.find? (·.name == j.name) = left₁.find? (·.name == j.name))
    (hfound : g₁.draft.conditions.find? (·.name == j.name) = left₁.find? (·.name == j.name))
    (hkept : ∀ c, left₁.find? (·.name == j.name) = some c →
      c.Sound g₁.world.issued r₁.key (some r₁.spec.target) ∧ unchanged c j = true)
    (ht₁ : (settleJob key r₁ left₁ j g₁.draft).AtOnce now g₁.world g₁'.world g₁'.draft)
    (ht₂ : (settleJob key r₂ left₂ j g₂.draft).AtOnce now g₂.world g₂'.world g₂'.draft) :
    ∃ c₁ c₂, Mirrors j.name g₁' g₂' c₁ c₂ ∧ (c₁.jobId = c₂.jobId ∨
      g₁.world.issued c₁.jobId = none ∧ g₂.world.issued c₂.jobId = none) := by
  rw [atOnce_settleJob] at ht₁ ht₂
  rw [hbuild, hleft] at ht₂
  cases hbuilt : Job.build r₁ j "" with
  | error e =>
    rw [hbuilt] at ht₁ ht₂
    obtain ⟨hworld₁, hdraft₁⟩ := ht₁
    obtain ⟨hworld₂, hdraft₂⟩ := ht₂
    obtain ⟨c₁, c₂, hmirrors, hid⟩ := mirrors_refuse h₁ h₂ hsame hfound
      (fun c hc => hkey₁ ▸ (hkept c hc).1) hworld₁ hdraft₁ hworld₂ hdraft₂
    exact ⟨c₁, c₂, hmirrors, .inl hid⟩
  | ok job =>
    rw [hbuilt] at ht₁ ht₂
    cases hfilter : (left₁.find? (·.name == j.name)).filter (·.jobId != "") with
    | some kept =>
      simp only [hfilter] at ht₁ ht₂
      obtain ⟨hfind, hne⟩ := Option.filter_eq_some_iff.1 hfilter
      have hissued := (hkept kept hfind).1.issued (by simpa using hne)
      rw [hkey₁, (find?_eq_some_name hfind).2] at hissued
      obtain ⟨c₁, c₂, hmirrors, hid⟩ :=
        mirrors_settleKept h₁ hsame (hfound.trans hfind) hissued ht₁ ht₂
      exact ⟨c₁, c₂, hmirrors, .inl hid⟩
    | none =>
      have hnone := eq_none_of_filter hbuilt (fun c hfind =>
        ⟨(hkept c hfind).1, (find?_eq_some_name hfind).2, (hkept c hfind).2⟩) hfilter
      simp only [hnone, Option.filter_none, Option.isSome_none] at ht₁ ht₂
      exact mirrors_settleNew h₁ h₂ hkey₁ hsame ht₁ ht₂

end Reconcile

namespace World

variable {now : Instant} {w w₁ w₂ : World} {r r₁ r₂ : Resource} {version v₁ v₂ : String}
  {j : JobSpec}

/-- Two specifications of a resource with the same target and the same excluded days have a job in
common, whatever other jobs they declare, in whatever order, and whether these can be built or not.
From every world that can come about, a reconcile that nothing comes between can be carried out for
each of them and succeeds, and if both are carried out at the same reading of the clock, they leave
the same condition for the job and the same job in the queue and in the agenda, up to the choice of
an id that was never used before. -/
theorem siblings_independent (hw : Reachable w) (hkey : r₂.key = r₁.key)
    (htarget : r₂.spec.target = r₁.spec.target)
    (hdates : r₂.spec.excludeDates = r₁.spec.excludeDates)
    (hnames₁ : (r₁.spec.jobs.map JobSpec.name).Nodup)
    (hnames₂ : (r₂.spec.jobs.map JobSpec.name).Nodup) (hj₁ : j ∈ r₁.spec.jobs)
    (hj₂ : j ∈ r₂.spec.jobs) (hfresh₁ : v₁ ∉ w.versions r₁.key)
    (hfresh₂ : v₂ ∉ w.versions r₂.key) (now : Instant) :
    (∃ w₁, (reconcile r₁.key).AtOnce now (w.rewritten r₁ v₁) w₁ (.ok ())) ∧
    (∃ w₂, (reconcile r₁.key).AtOnce now (w.rewritten r₂ v₂) w₂ (.ok ())) ∧
    ∀ w₁ w₂ a₁ a₂, (reconcile r₁.key).AtOnce now (w.rewritten r₁ v₁) w₁ a₁ →
      (reconcile r₁.key).AtOnce now (w.rewritten r₂ v₂) w₂ a₂ →
      a₁ = .ok () ∧ a₂ = .ok () ∧ ∃ c₁ c₂, w₁.Shows r₁.key j.name c₁ ∧
        w₂.Shows r₁.key j.name c₂ ∧ c₂ = { c₁ with jobId := c₂.jobId } ∧
        w₁.manager.AlikeAt c₁.jobId w₂.manager c₂.jobId ∧
        (c₁.jobId = c₂.jobId ∨ w.issued c₁.jobId = none ∧ w.issued c₂.jobId = none) := by
  have hreachable₁ := reachable_rewritten hw r₁ v₁
  have hreachable₂ := reachable_rewritten hw r₂ v₂
  refine ⟨exists_atOnce now (supplied_of_reachable hreachable₁) r₁.key,
    exists_atOnce now (supplied_of_reachable hreachable₂) r₁.key,
    fun w₁ w₂ a₁ a₂ hrun₁ hrun₂ =>
      ⟨hrun₁.yields (yields_reconcile r₁.key), hrun₂.yields (yields_reconcile r₁.key), ?_⟩⟩
  have hgood₁ := good_of_reachable hreachable₁
  have hgood₂ := good_of_reachable hreachable₂
  obtain ⟨r₁', hr₁, hspec₁, hkey₁, hstatus₁, hmanager₁, hissued₁⟩ := exists_rewritten hfresh₁
  obtain ⟨r₂', hr₂, hspec₂, hkey₂, hstatus₂, hmanager₂, hissued₂⟩ := exists_rewritten hfresh₂
  rw [hkey] at hr₂ hkey₂ hstatus₂
  obtain ⟨before₁, after₁, hturn₁⟩ :=
    exists_turn hgood₁ hr₁ (hspec₁ ▸ hnames₁) (hspec₁ ▸ hj₁) hrun₁
  obtain ⟨before₂, after₂, hturn₂⟩ :=
    exists_turn hgood₂ hr₂ (hspec₂ ▸ hnames₂) (hspec₂ ▸ hj₂) hrun₂
  have hstatus : r₂'.status.getD .initial = r₁'.status.getD .initial := by rw [hstatus₁, hstatus₂]
  have hsameOf : Reconcile.SameOf j.name (r₁'.status.getD .initial) r₁'.spec r₂'.spec := by
    refine ⟨?_, ?_⟩
    · simp only [Status.globalChange, hspec₁, hspec₂, htarget, hdates]
    · rw [hspec₁, hspec₂, find?_of_nodup hnames₁ hj₁, find?_of_nodup hnames₂ hj₂]
  -- Nothing but the resource was written, so that all the difference is in the specifications.
  have hwritten : (w.rewritten r₁ v₁).SameFor r₁.key j.name (w.rewritten r₂ v₂) :=
    sameFor_of_manager (hmanager₂.trans hmanager₁.symm) (hissued₂.trans hissued₁.symm)
  have hdivided := hsameOf.dropped hwritten hgood₁ hgood₂
    (hgood₁.resources r₁.key r₁' hr₁).status_getD
  have hstart₂ := hturn₂.start
  have hfound₂ := hturn₂.found
  have hreusable₂ := hturn₂.reusable
  rw [divided, hstatus] at hstart₂
  rw [hstatus, hsameOf.find?_retained, ← hturn₁.found] at hfound₂
  rw [hstatus, hsameOf.reusableId, ← hturn₁.reusable] at hreusable₂
  have hsame : before₁.Same r₁.key j.name before₂ :=
    ⟨(hturn₁.start.symm.trans hdivided).trans hstart₂, hfound₂, hreusable₂⟩
  have hbuild := Reconcile.build_of_common (hkey₂.trans hkey₁.symm)
    (hspec₁ ▸ hspec₂ ▸ htarget) (hspec₁ ▸ hspec₂ ▸ hdates) j ""
  obtain ⟨c₁, c₂, hmirrors, hids⟩ := Reconcile.mirrors_settleJob hturn₁.sound hturn₂.sound hkey₁
    hsame hbuild (hstatus ▸ hsameOf.find?_retained) hturn₁.found (fun c hfind => by
      obtain ⟨hmem, hname⟩ := Reconcile.find?_eq_some_name hfind
      exact ⟨hturn₁.left c hmem, Reconcile.unchanged_of_mem_retained (hspec₁ ▸ hnames₁)
        (hspec₁ ▸ hj₁) hmem hname⟩) hturn₁.turn hturn₂.turn
  obtain ⟨hshows₁, hleft₁⟩ := hturn₁.leaves c₁ hmirrors.found₁
  obtain ⟨hshows₂, hleft₂⟩ := hturn₂.leaves c₂ hmirrors.found₂
  refine ⟨c₁, c₂, hshows₁, hshows₂, hmirrors.condition, hmirrors.slot.congr hleft₁ hleft₂, ?_⟩
  rcases hids with hid | ⟨hid₁, hid₂⟩
  · exact .inl hid
  refine .inr ⟨?_, ?_⟩
  · exact hissued₁ ▸ hturn₁.grown.eq_none hid₁
  · exact hissued₂ ▸ hturn₂.grown.eq_none hid₂

/-- The resource that asks for a larger size every morning, with another job before it in the place
of the one that cannot be read. -/
def crowdedWeb : Resource :=
  { web with spec := { web.spec with jobs := [⟨"noon", "0 0 12 * * *", false, 3⟩, morning] } }

/-- The world after the resource was reconciled for the first time. -/
def settledWeb : World := withWeb.carriedOut ⟨0, 0⟩ (task (reconcile web.key))

theorem morning_beside_others : ∃ w₁ w₂ c₁ c₂,
    (reconcile web.key).AtOnce ⟨60, 0⟩ (settledWeb.rewritten web "2") w₁ (.ok ()) ∧
    (reconcile web.key).AtOnce ⟨60, 0⟩ (settledWeb.rewritten crowdedWeb "2") w₂ (.ok ()) ∧
      w₁.Shows web.key morning.name c₁ ∧ w₂.Shows web.key morning.name c₂ ∧
        c₂ = { c₁ with jobId := c₂.jobId } ∧
        w₁.manager.AlikeAt c₁.jobId w₂.manager c₂.jobId := by
  have hwritten : Reachable withWeb := (Reachable.new Zone.utc 0).step (.put web "0" (by decide))
  have hreachable : Reachable settledWeb :=
    reachable_carriedOut hwritten (.inl ⟨web.key, rfl⟩) ⟨0, 0⟩
  have hfresh₁ : "2" ∉ settledWeb.versions web.key := by decide +kernel
  have hfresh₂ : "2" ∉ settledWeb.versions crowdedWeb.key := by decide +kernel
  obtain ⟨⟨w₁, hrun₁⟩, ⟨w₂, hrun₂⟩, hsame⟩ := siblings_independent (j := morning) hreachable
    (show crowdedWeb.key = web.key from rfl) rfl rfl (by decide) (by decide) (by decide)
    (by decide) hfresh₁ hfresh₂ ⟨60, 0⟩
  obtain ⟨_, _, c₁, c₂, hshows₁, hshows₂, hcondition, hslot, _⟩ := hsame _ _ _ _ hrun₁ hrun₂
  exact ⟨w₁, w₂, c₁, c₂, hrun₁, hrun₂, hshows₁, hshows₂, hcondition, hslot⟩

end World

end CronScale
