import CronScale.Proofs.Manager.Handling
import CronScale.Proofs.Manager.Races
import CronScale.Proofs.Manager.Retired
import Mathlib.Data.List.Nodup
/-!
# Ids and their jobs

An id travels far: from the condition of a job to the queue and the agenda, with what is fired to
the recording of its outcome, and from there back into a condition. A call that drops a job or
merges a condition trusts the id alone. It may do so, since an id names the same job of the same
resource wherever and whenever it turns up (`World.ids_keep_to_jobs`), whatever happens and however
the procedures under way overlap.
-/

namespace CronScale

open CronScale.Calendar

/-- Whether the conditions of a status have names of their own and, where they have ids, ids of
their own. -/
structure Status.Distinct (s : Status) : Prop where
  names : (s.conditions.map Condition.name).Nodup
  ids : (Reconcile.idsNamed s.conditions).Nodup

/-- Where an id belongs to one name, conditions with names of their own have ids of their own. -/
theorem Status.Sound.distinct_ids {i : Issued} {owner : OwnerKey} {s : Status}
    (h : s.Sound i owner) : s.Distinct where
  names := h.distinct
  ids := by
    unfold Reconcile.idsNamed
    rw [List.filter_map]
    refine List.Nodup.map_on ?_ (h.distinct.of_map.filter _)
    intro c hc d hd hid
    obtain ⟨hc, hne⟩ := List.mem_filter.1 hc
    have hne : c.jobId ≠ "" := bne_iff_ne.1 hne
    have hissued := (h.conditions c hc).issued hne
    rw [hid, (h.conditions d (List.mem_filter.1 hd).1).issued (hid ▸ hne)] at hissued
    have hname : d.name = c.name := (Prod.mk.inj (Option.some.inj hissued)).2
    exact eq_of_nodup h.distinct hc (List.mem_filter.1 hd).1 hname.symm

/-- What a call says of an id: whose job it queues or starts under it, or what job a condition is
about that it writes. -/
inductive DeskCall.Names : DeskCall → String → OwnerKey → String → Prop
  | queues (job : Job) : Names (.manager (.createOrUpdate job)) job.id job.owner job.name
  | starts {jobs : List Job} {job : Job} (hjob : job ∈ jobs) :
      Names (.startReruns jobs) job.id job.owner job.name
  | tells {key : OwnerKey} {s : Status} {version : Option String} {c : Condition}
      (hc : c ∈ s.conditions) (hid : c.jobId ≠ "") :
      Names (.store (.patchStatus key s version)) c.jobId key c.name

theorem DeskCall.Names.issued {c : DeskCall} {id name : String} {owner : OwnerKey} {i : Issued}
    (h : c.Names id owner name) (hc : c.Sound i) : i id = some (owner, name) := by
  cases h with
  | queues job => exact Job.Sound.issued hc
  | starts hjob => exact (hc _ hjob).issued
  | tells hmem hid => exact ((Status.Sound.conditions hc) _ hmem).issued hid

namespace World

/-- What a world says of an id: for whom it was given out, and the jobs and conditions under it,
wherever they are. -/
inductive Names (w : World) : String → OwnerKey → String → Prop
  | issued {id : String} {owner : OwnerKey} {name : String}
      (hid : w.issued id = some (owner, name)) : Names w id owner name
  | queued {id : String} {job : Job} (hjob : w.manager.queue.get? id = some job) :
      Names w id job.owner job.name
  | scheduled {id : String} {entry : Entry Job}
      (hentry : w.manager.engine.agenda.entries.get? id = some entry) :
      Names w id entry.job.owner entry.job.name
  | told {key : OwnerKey} {r : Resource} {s : Status} {c : Condition}
      (hr : w.resources key = some r) (hs : r.status = some s) (hc : c ∈ s.conditions)
      (hid : c.jobId ≠ "") : Names w c.jobId key c.name
  | executing {job : Job} (hjob : job ∈ w.executing) : Names w job.id job.owner job.name
  | asked {c : DeskCall} {next : c.Reply → Procedure Desk Unit} {id : String} {owner : OwnerKey}
      {name : String} (hp : Procedure.ask c next ∈ w.procedures) (hc : c.Names id owner name) :
      Names w id owner name

variable {w w' : World} {key owner : OwnerKey} {id name : String}

/-- Whatever a world says of an id is what the id was given out for. -/
theorem Names.issued_eq (h : w.Names id owner name) (hgood : w.Good) :
    w.issued id = some (owner, name) := by
  cases h with
  | issued hid => exact hid
  | @queued _ job hjob =>
    rw [← hgood.lockstep.keyed id job hjob]
    exact (hgood.queued id job hjob).issued
  | @scheduled _ entry hentry =>
    have hjob := (hgood.lockstep.entries id entry hentry).1
    rw [← hgood.lockstep.keyed id entry.job hjob]
    exact (hgood.queued id entry.job hjob).issued
  | told hr hs hc hid => exact (((hgood.resources _ _ hr).status _ hs).conditions _ hc).issued hid
  | executing hjob => exact (hgood.executing _ hjob).issued
  | asked hp hc => exact hc.issued (hgood.procedures _ hp).1

theorem Good.run (h : w.Good) (hrun : Relation.ReflTransGen Step w w') :
    w'.Good ∧ w.issued.Le w'.issued := by
  induction hrun with
  | refl => exact ⟨h, .refl _⟩
  | tail _ hstep ih =>
    obtain ⟨hgood, hle⟩ := ih
    obtain ⟨hgood', hle'⟩ := hgood.step hstep
    exact ⟨hgood', hle.trans hle'⟩

theorem Reachable.run (h : Reachable w) (hrun : Relation.ReflTransGen Step w w') :
    Reachable w' := by
  induction hrun with
  | refl => exact h
  | tail _ hstep ih => exact ih.step hstep

/-- Two things that are said of one id, now or later, are said of one job of one resource. -/
theorem Names.unique (h : w.Names id owner name) (hgood : w.Good)
    (hrun : Relation.ReflTransGen Step w w') {owner' : OwnerKey} {name' : String}
    (h' : w'.Names id owner' name') : owner' = owner ∧ name' = name := by
  obtain ⟨hgood', hle⟩ := hgood.run hrun
  have hissued := h'.issued_eq hgood'
  rw [hle _ _ (h.issued_eq hgood)] at hissued
  obtain ⟨howner, hname⟩ := Prod.mk.inj (Option.some.inj hissued)
  exact ⟨howner.symm, hname.symm⟩

/-! ### Sound procedures along their traces -/

/-- Whether a procedure under way is sound in a world in which all ids are given out that were so
before. -/
structure Minding {α : Type} (i : Issued) (w : World) (p : Procedure Desk α) : Prop where
  good : w.Good
  sound : p.Sound w.issued
  later : i.Le w.issued

theorem minding_start {α : Type} {p : Procedure Desk α} (hgood : w.Good) (hp : p.Sound w.issued) :
    Minding w.issued w p :=
  ⟨hgood, hp, .refl _⟩

section

variable {α : Type} {p q : Procedure Desk α} {deeds : List Deed} {i : Issued}

theorem Minding.step (h : Minding i w p) (hstep : Step w w') : Minding i w' p := by
  obtain ⟨hgood, hle⟩ := h.good.step hstep
  exact ⟨hgood, h.sound.mono hle, h.later.trans hle⟩

theorem Minding.run (h : Minding i w p) (hrun : Relation.ReflTransGen Step w w') :
    Minding i w' p := by
  induction hrun with
  | refl => exact h
  | tail _ hstep ih => exact ih.step hstep

theorem Minding.answers {c : DeskCall} {next : c.Reply → Procedure Desk α} {reply : c.Reply}
    (h : Minding i w (.ask c next)) (hanswer : w.Answers c reply w') :
    Minding i w' (next reply) := by
  obtain ⟨hc, hnext⟩ := h.sound
  obtain ⟨hgood, hle, hfits⟩ := h.good.answers hc hanswer
  exact ⟨hgood, hnext _ reply hle hfits, h.later.trans hle⟩

/-- A procedure that is sound when it begins is so at every call. -/
theorem Trace.minding (htrace : Trace Step w p deeds w' q) (h : Minding i w p) :
    ∀ d ∈ deeds, d.before.Good ∧ i.Le d.before.issued ∧
      ∃ reply, d.before.Answers d.call reply d.after := by
  obtain ⟨_, hdeeds⟩ := htrace.invariant (fun _ _ _ h hstep => h.step hstep)
    (fun _ _ _ _ _ h hanswer => h.answers hanswer) h
  intro d hd
  obtain ⟨_, reply, hminding, hanswer⟩ := hdeeds d hd
  exact ⟨hminding.good, hminding.later, reply, hanswer⟩

/-- What holds of every call that a procedure may make holds of those that it has made. -/
theorem Trace.asks {between : World → World → Prop} {test : DeskCall → Prop} {post : α → Prop}
    (htrace : Trace between w p deeds w' q) (hp : p.Asks test post) :
    ∀ d ∈ deeds, test d.call := by
  have hcall : ∀ w₁ c (next : DeskCall.Reply c → Procedure Desk α) reply w₂,
      (Procedure.ask c next).Asks test post → Answers w₁ c reply w₂ →
        (next reply).Asks test post :=
    fun _ _ _ reply _ hasks _ => hasks.2 reply
  obtain ⟨_, hdeeds⟩ := htrace.invariant (fun _ _ _ hasks _ => hasks) hcall hp
  intro d hd
  obtain ⟨_, _, hasks, _⟩ := hdeeds d hd
  exact hasks.1

/-- What a sound procedure has asked for after its first call it has asked for knowing the
answer. -/
theorem Trace.after_first {c : DeskCall} {next : c.Reply → Procedure Desk α}
    (htrace : Trace Step w (.ask c next) deeds w' q) (h : Minding i w (.ask c next)) {d : Deed}
    (hd : d ∈ deeds) (hother : d.call ≠ c) : ∃ w₁ reply w₂ rest, ⟨w₁, c, w₂⟩ ∈ deeds ∧ w₁.Good ∧
      w₁.Answers c reply w₂ ∧ Minding w₁.issued w₂ (next reply) ∧ d ∈ rest ∧
        Trace Step w₂ (next reply) rest w' q := by
  rcases htrace.of_ask with ⟨_, _, rfl⟩ | ⟨w₁, reply, w₂, rest, hrun, hanswer, rfl, hrest⟩
  · exact absurd hd List.not_mem_nil
  · have hd : d ∈ rest := (List.mem_cons.1 hd).resolve_left fun heq => hother (heq ▸ rfl)
    have hminding := h.run hrun
    have hstart := minding_start hminding.good hminding.sound
    exact ⟨w₁, reply, w₂, rest, List.mem_cons_self, hminding.good, hanswer,
      hstart.answers hanswer, hd, hrest⟩

end

/-! ### Dropping by ids -/

/-- Whether a call leaves all jobs but those of one name of one resource as they are, in the queue
and in the agenda. -/
def Deed.SparesJobs (d : Deed) (owner : OwnerKey) (name : String) : Prop :=
  ∀ id job, d.before.manager.queue.get? id = some job → ¬(job.owner = owner ∧ job.name = name) →
    d.before.manager.SameAt d.after.manager id

/-- To drop a job by its id is to drop the one for which the id was given out. -/
theorem sparesJobs_of_delete {reply : Bool} (hgood : w.Good)
    (hanswer : w.Answers (.manager (.delete id)) reply w')
    (hid : id ≠ "" → w.issued id = some (owner, name)) :
    Deed.SparesJobs ⟨w, .manager (.delete id), w'⟩ owner name := by
  obtain ⟨now, _, rfl⟩ := hanswer
  intro id' job hjob hother
  refine Manager.sameAt_drop fun heq => hother ?_
  subst heq
  have hkeyed := hgood.lockstep.keyed id' job hjob
  have hsound := hgood.queued id' job hjob
  have hissued := hsound.issued
  rw [hkeyed, hid (hkeyed ▸ hsound.named)] at hissued
  obtain ⟨howner, hname⟩ := Prod.mk.inj (Option.some.inj hissued)
  exact ⟨howner.symm, hname.symm⟩

end World

namespace Reconcile

/-- A reconcile drops no jobs by their ids but those that the conditions of its copy name. -/
theorem drops_settleResource (key : OwnerKey) (r : Resource) :
    (settleResource key r).Asks
      (DeskCall.Drops ((r.status.getD .initial).conditions.map Condition.jobId))
      fun _ => True := by
  have hconditions : ∀ c ∈ (r.status.getD .initial).conditions,
      c.jobId ∈ (r.status.getD .initial).conditions.map Condition.jobId :=
    fun c hc => List.mem_map_of_mem hc
  refine (asks_complain trivial fun _ => trivial).seq fun _ _ => ?_
  refine (asks_divide hconditions trivial r.spec).seq fun p hp => ?_
  subst hp
  have hleft : ∀ c ∈ retained r.spec (r.status.getD .initial),
      c.jobId ∈ (r.status.getD .initial).conditions.map Condition.jobId :=
    fun c hc => hconditions c ((retained_sublist r.spec _).subset hc)
  refine (asks_settleJobs_each trivial (fun _ => trivial) (fun _ => trivial) hleft
    (fun _ _ => trivial) _ _).seq fun d _ => ?_
  refine (Procedure.asks_ask trivial).seq fun _ _ => ?_
  split
  · refine (Procedure.asks_ask trivial).seq fun reply _ => ?_
    cases reply with
    | ok u => trivial
    | error e => trivial
  · trivial

end Reconcile

namespace World

variable {w w' : World} {key : OwnerKey} {deeds : List Deed} {q : Procedure Desk Unit}

/-- A reconcile drops jobs by the ids in the conditions of its copy, and only their jobs. -/
theorem Trace.reconcile_drops (htrace : Trace Step w (task (reconcile key)) deeds w' q)
    (hgood : w.Good) : ∀ d ∈ deeds, ∀ id, d.call = .manager (.delete id) →
      ∃ e ∈ deeds, ∃ r c, e.call = .store (.fetch key) ∧ e.before.resources key = some r ∧
        c ∈ (r.status.getD .initial).conditions ∧ c.jobId = id ∧ d.SparesJobs key c.name := by
  rintro ⟨before, call, after⟩ hd id hcall
  obtain rfl : call = _ := hcall
  have hminding := minding_start hgood (sound_reconcile key w.issued).task
  obtain ⟨w₁, reply, w₂, rest, hfirst, hgood₁, hanswer, hminding₂, hd, hrest⟩ :=
    htrace.after_first hminding hd (by simp)
  obtain ⟨hgood', hle, _, hdropped⟩ := hrest.minding hminding₂ _ hd
  match reply with
  | .error e =>
    have hasks : Procedure.Asks (fun _ => False) (fun _ => True)
        (task (pure (.error e) : Procedure Desk (Except Fault Unit))) := trivial
    exact (hrest.asks hasks _ hd).elim
  | .ok none =>
    have hasks : Procedure.Asks (DeskCall.Drops []) (fun _ => True) (do
        let _ ← Desk.note key none
        let () ← Desk.startSweep
        pure (.ok () : Except Fault Unit)) := by
      refine (Procedure.asks_ask trivial).seq fun _ _ => ?_
      exact (Procedure.asks_ask trivial).seq fun _ _ => trivial
    exact absurd (hrest.asks hasks.task _ hd) List.not_mem_nil
  | .ok (some r) =>
    have hdrops := hrest.asks (Reconcile.drops_settleResource key r).task _ hd
    obtain ⟨c, hc, rfl⟩ := List.mem_map.1 hdrops
    have hstored : w₁.resources key = some r := by
      rcases hanswer.2 with hreply | ⟨e, hreply⟩
      · exact (Except.ok.inj hreply).symm
      · exact absurd hreply (by simp)
    have hsound := (hgood₁.resources key r hstored).status_getD.conditions c hc
    refine ⟨_, hfirst, r, c, rfl, hstored, hc, rfl, ?_⟩
    exact sparesJobs_of_delete hgood' hdropped fun hne => hle _ _ (hsound.issued hne)

/-- A pass drops jobs by the ids of the queued jobs that it has copied, and only these. -/
theorem Trace.sweep_drops (htrace : Trace Step w (task sweep) deeds w' q) (hgood : w.Good) :
    ∀ d ∈ deeds, ∀ id, d.call = .manager (.delete id) →
      ∃ e ∈ deeds, ∃ job, e.call = .manager .snapshot ∧
        e.before.manager.queue.get? id = some job ∧ d.SparesJobs job.owner job.name := by
  rintro ⟨before, call, after⟩ hd id hcall
  obtain rfl : call = _ := hcall
  obtain ⟨next, heq, hnext⟩ := asks_sweep_of_copy
  have hminding := minding_start hgood (sound_sweep w.issued).task
  rw [heq] at htrace hminding
  obtain ⟨w₁, jobs, w₂, rest, hfirst, hgood₁, hanswer, hminding₂, hd, hrest⟩ :=
    htrace.after_first hminding hd (by simp)
  obtain ⟨hgood', hle, _, hdropped⟩ := hrest.minding hminding₂ _ hd
  obtain ⟨job, hjob, rfl⟩ := List.mem_map.1 (hrest.asks (hnext jobs).task _ hd).2
  obtain ⟨now, hcopy, _⟩ := hanswer
  obtain rfl : jobs = w₁.manager.queue.values := hcopy
  obtain ⟨id, hqueued⟩ := Table.mem_values.1 hjob
  have hsound := hgood₁.queued id job hqueued
  refine ⟨_, hfirst, job, rfl, hgood₁.lockstep.keyed id job hqueued ▸ hqueued, ?_⟩
  exact sparesJobs_of_delete hgood' hdropped fun _ => hle _ _ hsound.issued

/-! ### Merging by ids -/

/-- Whether a call leaves all stored conditions but those of one name of one resource. -/
def Deed.SparesConditions (d : Deed) (owner : OwnerKey) (name : String) : Prop :=
  ∀ key r s c, d.before.resources key = some r → r.status = some s → c ∈ s.conditions →
    ¬(key = owner ∧ c.name = name) →
      ∃ r' s', d.after.resources key = some r' ∧ r'.status = some s' ∧ c ∈ s'.conditions

/-- A condition of another name does not carry the id of a job. -/
theorem not_matchesJob {i : Issued} {job : Job} {c : Condition} {t : Option TargetSpec}
    (hjob : job.Sound i) (hc : c.Sound i job.owner t) (hname : c.name ≠ job.name)
    (outcome : Except Fault String) (now : Instant) :
    (Record.conditionOf job outcome now).matchesJob c = false := by
  have hid : c.jobId ≠ job.id := by
    intro heq
    have hissued := hc.issued (heq ▸ hjob.named)
    rw [heq, hjob.issued] at hissued
    exact hname (Prod.mk.inj (Option.some.inj hissued)).2.symm
  exact Condition.matchesJob_eq_false_iff.2 ⟨hid, hname⟩

/-- The outcome of a job takes no place but that of the condition of its job, whatever was written
since the job was fired. -/
theorem Deed.WritesFrom.sparesConditions {d : Deed} {job : Job} {outcome : Except Fault String}
    (h : d.WritesFrom job.owner (Record.Computes job outcome)) (hgood : d.before.Good)
    (hjob : job.Sound d.before.issued) : d.SparesConditions job.owner job.name := by
  intro key r s c hr hs hc hother
  cases h with
  | other _ hsame => exact ⟨r, s, hsame ▸ hr, hs, hc⟩
  | refused _ _ _ _ hsame => exact ⟨r, s, hsame ▸ hr, hs, hc⟩
  | written r₁ s₁ _ hcomputed hstored hwritten =>
    by_cases hkey : key = job.owner
    · subst hkey
      obtain rfl := Option.some.inj (hr.symm.trans hstored)
      obtain ⟨now, hreplaces⟩ := hcomputed
      obtain ⟨_, r', _, hr', _, hs'⟩ := hwritten.resource
      have hsound := ((hgood.resources _ r hr).status s hs).conditions c hc
      have hmatch := not_matchesJob hjob hsound (fun hname => hother ⟨rfl, hname⟩) outcome now
      have hkept : c ∈ s.conditions.filter fun d =>
          !(Record.conditionOf job outcome now).matchesJob d :=
        List.mem_filter.2 ⟨hc, by rw [hmatch, Bool.not_false]⟩
      rw [← Option.getD_some (a := s) (b := Status.initial), ← hs, ← hreplaces.others] at hkept
      exact ⟨r', s₁, hr', hs', (List.mem_filter.1 hkept).1⟩
    · exact ⟨r, s, (hwritten.resources_of_ne hkey).trans hr, hs, hc⟩

/-- Whatever happens in between, the recording of an outcome leaves all conditions that are not
about its job. -/
theorem Trace.record_merges {settings : ManagerSettings} {job : Job}
    {outcome : Except Fault String} (htrace : Trace Step w (record settings job outcome) deeds w' q)
    (hgood : w.Good) (hversioned : w.Versioned) (hjob : job.Sound w.issued) :
    ∀ d ∈ deeds, d.SparesConditions job.owner job.name := by
  have hfrom := fromCopy_record settings job outcome none
  have hcareful : Careful job.owner (Record.Computes job outcome) w (record settings job outcome) :=
    ⟨hversioned, none, hfrom, remembers_none w job.owner⟩
  obtain ⟨_, hdeeds⟩ := htrace.invariant (fun _ _ _ h hstep => h.renews hstep.renews)
    (fun _ _ _ _ _ h hanswer => h.answers hanswer) hcareful
  have hminding := htrace.minding (minding_start hgood (sound_record settings hjob outcome))
  intro d hd
  obtain ⟨_, _, ⟨_, _, hfrom, hremembers⟩, hanswer⟩ := hdeeds d hd
  obtain ⟨hgood', hle, _⟩ := hminding d hd
  exact (hremembers.writesFrom hfrom.1 hanswer).sparesConditions hgood' (hjob.mono hle)

/-- In every world that can come about, the conditions of a status have names and ids of their own,
and all that is said of an id, now or at any later time, is said of one job of one resource. So what
a reconcile or a pass drops by its id, and what the recording of an outcome merges by its id, is the
job and the condition that was meant. -/
theorem ids_keep_to_jobs (hw : Reachable w) :
    (∀ key r s, w.resources key = some r → r.status = some s → s.Distinct) ∧
    (∀ id owner name, w.Names id owner name → ∀ w', Relation.ReflTransGen Step w w' →
      ∀ owner' name', w'.Names id owner' name' → owner' = owner ∧ name' = name) ∧
    (∀ key deeds w' q, Trace Step w (task (reconcile key)) deeds w' q → ∀ d ∈ deeds, ∀ id,
      d.call = .manager (.delete id) →
        ∃ e ∈ deeds, ∃ r c, e.call = .store (.fetch key) ∧ e.before.resources key = some r ∧
          c ∈ (r.status.getD .initial).conditions ∧ c.jobId = id ∧ d.SparesJobs key c.name) ∧
    (∀ deeds w' q, Trace Step w (task sweep) deeds w' q → ∀ d ∈ deeds, ∀ id,
      d.call = .manager (.delete id) →
        ∃ e ∈ deeds, ∃ job, e.call = .manager .snapshot ∧
          e.before.manager.queue.get? id = some job ∧ d.SparesJobs job.owner job.name) ∧
    ∀ job ∈ w.executing, ∀ w₁, Relation.ReflTransGen Step w w₁ → ∀ settings outcome deeds w' q,
      Trace Step w₁ (record settings job outcome) deeds w' q →
        ∀ d ∈ deeds, d.SparesConditions job.owner job.name := by
  have hgood := good_of_reachable hw
  refine ⟨?_, ?_, ?_, ?_, ?_⟩
  · intro key r s hr hs
    exact ((hgood.resources key r hr).status s hs).distinct_ids
  · intro id owner name hnames w' hrun owner' name' hnames'
    exact hnames.unique hgood hrun hnames'
  · intro key deeds w' q htrace
    exact htrace.reconcile_drops hgood
  · intro deeds w' q htrace
    exact htrace.sweep_drops hgood
  · intro job hjob w₁ hrun settings outcome deeds w' q htrace
    obtain ⟨hgood₁, hle⟩ := hgood.run hrun
    have hversioned := versioned_of_reachable (hw.run hrun)
    exact htrace.record_merges hgood₁ hversioned ((hgood.executing job hjob).mono hle)

/-- The world in which a job was queued by a reconcile at midnight, and fired a minute later. -/
def fired (j : JobSpec) : World :=
  ((opened j).carriedOut ⟨0, 0⟩ (task (reconcile (shop j).key))).started (60 * nanosPerSecond)

theorem reachable_fired (j : JobSpec) : Reachable (fired j) :=
  reachable_started (reachable_carriedOut (reachable_opened j) (.inl ⟨_, rfl⟩) ⟨0, 0⟩) _

/-- The id of a job that is being carried out stands in the stored condition, and nothing else will
ever be said of it. -/
theorem afterMidnight_keeps_id :
    (fired afterMidnight).executing.map Job.id = ["up"] ∧
    (∃ r s, (fired afterMidnight).resources (shop afterMidnight).key = some r ∧
      r.status = some s ∧ s.Distinct ∧ s.conditions.map Condition.jobId = ["up"]) ∧
    ∀ w', Relation.ReflTransGen Step (fired afterMidnight) w' → ∀ owner name,
      w'.Names "up" owner name → owner = (shop afterMidnight).key ∧ name = "up" := by
  obtain ⟨hdistinct, hunique, _⟩ := ids_keep_to_jobs (reachable_fired afterMidnight)
  have hexecuting : (fired afterMidnight).executing.map Job.id = ["up"] := by decide +kernel
  have htold : (((fired afterMidnight).resources (shop afterMidnight).key).bind
      (·.status)).map (fun s => s.conditions.map Condition.jobId) = some ["up"] := by
    decide +kernel
  have hissued : (fired afterMidnight).issued "up" = some ((shop afterMidnight).key, "up") := by
    decide +kernel
  obtain ⟨s, hs, hids⟩ := Option.map_eq_some_iff.1 htold
  obtain ⟨r, hr, hs⟩ := Option.bind_eq_some_iff.1 hs
  refine ⟨hexecuting, ⟨r, s, hr, hs, hdistinct _ r s hr hs, hids⟩, ?_⟩
  intro w' hrun owner name hnames
  exact hunique "up" _ _ (.issued hissued) w' hrun owner name hnames

end World

end CronScale
