import CronScale.Proofs.Manager.Handling
import CronScale.Proofs.Manager.Races
import CronScale.Proofs.Manager.Retired
/-!
# Jobs that are carried out only once

Once a reconcile has succeeded, a job that is declared to run once is carried out at most once more
(`World.executed_at_most_once`): the engine leaves its entry without a next time when it has fired
it, and no later reconcile puts the entry in anew, be it interrupted, refused its write or run on a
copy that is out of date, as long as one reconcile of the resource follows another. What collects
lost jobs does not keep to this: a job that was missed is run once more and scheduled anew
(`World.missed_executed_twice`).
-/

namespace CronScale

open CronScale.Calendar

/-- Whether a job is one of a resource with a name. -/
def Job.isOf (key : OwnerKey) (name : String) (job : Job) : Bool :=
  job.owner = key && job.name == name

theorem Job.isOf_iff {key : OwnerKey} {name : String} {job : Job} :
    job.isOf key name = true ↔ job.owner = key ∧ job.name = name := by
  simp only [isOf, Bool.and_eq_true, decide_eq_true_eq, beq_iff_eq]

namespace Engine

variable {e : Engine Job} {id : String} {test : Job → Bool}

/-- If only one entry can pass a test, what is fired of the jobs that pass it is that entry's. -/
theorem countP_dispatch_le
    (hkeyed : ∀ id entry, e.agenda.entries.get? id = some entry → entry.job.id = id)
    (honly : ∀ id' entry, e.agenda.entries.get? id' = some entry → test entry.job = true → id' = id)
    (now : Int) : (e.dispatch now).1.countP test ≤
      ((e.agenda.entries.get? id).toList.filter (Agenda.isDue (.ofNanos now))).length := by
  have hvalues := Table.filter_values (f := fun entry : Entry Job => entry.job.id) hkeyed id
  have hfired : (e.dispatch now).1 =
      (e.agenda.entries.values.filter (Agenda.isDue (.ofNanos now))).map Entry.job := rfl
  rw [← hvalues, List.filter_filter, ← List.countP_eq_length_filter, hfired, List.countP_map,
    List.countP_filter]
  refine List.countP_mono_left fun entry hentry hboth => ?_
  obtain ⟨id', hid'⟩ := Table.mem_values.1 hentry
  simp only [Function.comp_apply, Bool.and_eq_true, decide_eq_true_eq] at hboth ⊢
  exact ⟨hboth.2, (hkeyed id' entry hid').trans (honly id' entry hid' hboth.1)⟩

/-- Whether no job that passes a test will be fired unless it is scheduled anew. -/
def Spent (e : Engine Job) (test : Job → Bool) : Prop :=
  ∀ id entry, e.agenda.entries.get? id = some entry → test entry.job = true → entry.next = none

/-- Going through the agenda fires a job that runs once at most once and not at all if it is spent,
and what was fired is spent. -/
theorem dispatch_once
    (hkeyed : ∀ id entry, e.agenda.entries.get? id = some entry → entry.job.id = id)
    (honly : ∀ id' entry, e.agenda.entries.get? id' = some entry → test entry.job = true → id' = id)
    (hsame : ∀ entry, e.agenda.entries.get? id = some entry →
      test entry.job = true ∧ entry.job.runOnce = true) (now : Int) :
    (e.dispatch now).1.countP test = 0 ∧ (e.Spent test → (e.dispatch now).2.Spent test) ∨
      (e.dispatch now).1.countP test ≤ 1 ∧ ¬e.Spent test ∧ (e.dispatch now).2.Spent test := by
  have hcount := countP_dispatch_le hkeyed honly now
  -- What is left of an entry that passes the test is the entry itself, or what firing makes of it.
  have hleft : ∀ id' entry', (e.dispatch now).2.agenda.entries.get? id' = some entry' →
      test entry'.job = true → ∃ entry, e.agenda.entries.get? id = some entry ∧
        entry' = if Agenda.isDue (.ofNanos now) entry then
          Agenda.fired e.agenda.zone (.ofNanos now) entry else entry := by
    intro id' entry' hentry' htest
    simp only [dispatch, Agenda.dispatch, Table.get?_map] at hentry'
    obtain ⟨entry, hentry, rfl⟩ := Option.map_eq_some_iff.1 hentry'
    have htest' : test entry.job = true := by
      split at htest <;> exact htest
    exact ⟨entry, honly id' entry hentry htest' ▸ hentry, rfl⟩
  cases hentry : e.agenda.entries.get? id with
  | none =>
    rw [hentry] at hcount
    refine .inl ⟨Nat.le_zero.1 hcount, fun _ id' entry' hentry' htest => ?_⟩
    obtain ⟨entry, hsome, _⟩ := hleft id' entry' hentry' htest
    exact absurd (hentry.symm.trans hsome) (Option.some_ne_none entry).symm
  | some entry =>
    rw [hentry] at hcount
    obtain ⟨htest, honce⟩ := hsame entry hentry
    by_cases hdue : Agenda.isDue (.ofNanos now) entry = true
    · refine .inr ⟨Nat.le_trans hcount (List.length_filter_le _ [entry]), fun hspent => ?_,
        fun id' entry' hentry' htest' => ?_⟩
      · simp only [Agenda.isDue, hspent id entry hentry htest] at hdue
        exact absurd hdue (by decide)
      · obtain ⟨entry₁, hsome, rfl⟩ := hleft id' entry' hentry' htest'
        obtain rfl := Option.some.inj (hentry.symm.trans hsome)
        simp only [hdue, if_true, Agenda.fired, Schedulable.runOnce, honce]
    · have hnone : [entry].filter (Agenda.isDue (.ofNanos now)) = [] :=
        List.filter_cons_of_neg hdue
      rw [Option.toList_some, hnone] at hcount
      refine .inl ⟨Nat.le_zero.1 hcount, fun hspent id' entry' hentry' htest' => ?_⟩
      obtain ⟨entry₁, hsome, rfl⟩ := hleft id' entry' hentry' htest'
      obtain rfl := Option.some.inj (hentry.symm.trans hsome)
      rw [if_neg hdue]
      exact hspent id entry hentry htest

theorem turn_once
    (hkeyed : ∀ id entry, e.agenda.entries.get? id = some entry → entry.job.id = id)
    (honly : ∀ id' entry, e.agenda.entries.get? id' = some entry → test entry.job = true → id' = id)
    (hsame : ∀ entry, e.agenda.entries.get? id = some entry →
      test entry.job = true ∧ entry.job.runOnce = true) (now : Int) :
    (e.turn now).1.countP test = 0 ∧ (e.Spent test → (e.turn now).2.Spent test) ∨
      (e.turn now).1.countP test ≤ 1 ∧ ¬e.Spent test ∧ (e.turn now).2.Spent test := by
  unfold turn
  split
  · exact .inl ⟨rfl, fun hspent => hspent⟩
  · split
    · exact dispatch_once hkeyed honly hsame now
    · exact .inl ⟨rfl, fun hspent => hspent⟩

end Engine

namespace World

variable {w w' : World} {key : OwnerKey} {spec : Spec} {j : JobSpec} {job : Job} {n : Nat}

/-! ### What is carried out and what may be -/

/-- How often jobs of a resource with a name were carried out. -/
def executions (w : World) (key : OwnerKey) (name : String) : Nat :=
  w.executed.countP (Job.isOf key name)

/-- Whether no job of a resource with a name will be fired unless it is scheduled anew. -/
def Spent (w : World) (key : OwnerKey) (name : String) : Prop :=
  w.manager.engine.Spent (Job.isOf key name)

/-- Whether a job that is declared to run once is the only one that is queued for its declaration,
and the status names its id, or it is not queued and the status has its outcome. -/
structure Installed (w : World) (key : OwnerKey) (spec : Spec) (j : JobSpec) (job : Job) :
    Prop where
  told : ∃ c, w.Tells key spec c ∧ c.Names j job.id ∧
    (w.manager.queue.get? job.id = none → c.state.isTerminal = true)
  alike : ∀ queued, w.manager.queue.get? job.id = some queued → queued.differsFrom job = false
  only : ∀ id queued, w.manager.queue.get? id = some queued → queued.owner = key →
    queued.name = j.name → id = job.id

/-- What other procedures and users may do about a declared job: whatever they do, the status names
the id of the job still and has its outcome if it had one, no job is queued for the declaration and
none is taken out, what is spent is not scheduled anew, and the job is not carried out. -/
structure Bystands (key : OwnerKey) (spec : Spec) (j : JobSpec) (w w' : World) : Prop where
  step : Step w w'
  told : ∀ c id, w.Tells key spec c → c.Names j id →
    ∃ c', w'.Tells key spec c' ∧ c'.Names j id ∧ c'.Keeps c
  queue : ∀ id job, job.owner = key → job.name = j.name →
    (w'.manager.queue.get? id = some job ↔ w.manager.queue.get? id = some job)
  spent : w.Spent key j.name → w'.Spent key j.name
  executed : w'.executions key j.name = w.executions key j.name

/-- What may happen in between: turns of the engine at any time, and what bystanders do. -/
inductive Amid (key : OwnerKey) (spec : Spec) (j : JobSpec) : World → World → Prop
  | turn {w : World} (now : Int) : Amid key spec j w { w with
      manager := { w.manager with engine := (w.manager.engine.turn now).2 }
      executing := w.executing ++ (w.manager.engine.turn now).1
      executed := w.executed ++ (w.manager.engine.turn now).1 }
  | other {w w' : World} : Bystands key spec j w w' → Amid key spec j w w'

/-- Reconciles of a resource one after another, each of which may be left off at any point, and what
happens in between. -/
inductive Season (key : OwnerKey) (spec : Spec) (j : JobSpec) : World → World → Prop
  | done (w : World) : Season key spec j w w
  | amid {w w' w'' : World} : Amid key spec j w w' → Season key spec j w' w'' →
      Season key spec j w w''
  | reconcile {w w' w'' : World} {deeds : List Deed} {q : Procedure Desk (Except Fault Unit)} :
      Trace (Amid key spec j) w (reconcile key) deeds w' q → Season key spec j w' w'' →
        Season key spec j w w''

theorem Amid.step (h : Amid key spec j w w') : Step w w' := by
  cases h with
  | turn now => exact .turn now
  | other h => exact h.step

/-- What holds all along a season that began after a number of executions: the job is installed, and
it was carried out at most once since, after which it is spent. -/
structure Once (n : Nat) (key : OwnerKey) (spec : Spec) (j : JobSpec) (job : Job) (w : World) :
    Prop where
  good : w.Good
  versioned : w.Versioned
  installed : w.Installed key spec j job
  count : w.executions key j.name ≤ n ∨
    w.executions key j.name ≤ n + 1 ∧ w.Spent key j.name

theorem Installed.issued (h : w.Installed key spec j job) (hw : w.Good) (hnamed : job.id ≠ "") :
    w.issued job.id = some (key, j.name) := by
  obtain ⟨c, htells, hnames, _⟩ := h.told
  exact htells.issued hw hnames hnamed

theorem Installed.same (h : w.Installed key spec j job) (hw : w.Good) (hnamed : job.id ≠ "")
    {queued : Job} (hqueued : w.manager.queue.get? job.id = some queued) :
    queued.owner = key ∧ queued.name = j.name :=
  have hissued := h.issued hw hnamed
  ⟨hw.owner_of_issued hissued hqueued, hw.name_of_issued hissued hqueued⟩

theorem Installed.runOnce (h : w.Installed key spec j job) (hw : w.Good)
    (hjob : job.OneShot key spec j) : job.runOnce = true := by
  obtain ⟨_, ⟨r, _, hr, hspec, _⟩, _⟩ := h.told
  have hbuild := hjob.built r (hw.resources key r hr).filed hspec
  rw [(Reconcile.declared_of_build hbuild).2.2, JobSpec.isRunOnce, hjob.once, Bool.true_or]

/-! ### Turns of the engine -/

/-- What a turn fires of an installed job, and what it leaves of its entry. -/
theorem Installed.turn (h : w.Installed key spec j job) (hw : w.Good)
    (hjob : job.OneShot key spec j) (now : Int) :
    (w.manager.engine.turn now).1.countP (Job.isOf key j.name) = 0 ∧
        (w.Spent key j.name → (w.manager.engine.turn now).2.Spent (Job.isOf key j.name)) ∨
      (w.manager.engine.turn now).1.countP (Job.isOf key j.name) ≤ 1 ∧ ¬w.Spent key j.name ∧
        (w.manager.engine.turn now).2.Spent (Job.isOf key j.name) := by
  have hqueued : ∀ id entry, w.manager.engine.agenda.entries.get? id = some entry →
      w.manager.queue.get? id = some entry.job :=
    fun id entry hentry => (hw.lockstep.entries id entry hentry).1
  refine @Engine.turn_once _ job.id _ (fun id entry hentry => ?_)
    (fun id entry hentry htest => ?_) (fun entry hentry => ?_) now
  · exact hw.lockstep.keyed id entry.job (hqueued id entry hentry)
  · obtain ⟨howner, hname⟩ := Job.isOf_iff.1 htest
    exact h.only id entry.job (hqueued id entry hentry) howner hname
  · have halike := h.alike entry.job (hqueued job.id entry hentry)
    simp only [Job.differsFrom, Bool.or_eq_false_iff, bne_eq_false_iff_eq] at halike
    refine ⟨Job.isOf_iff.2 (h.same hw hjob.named (hqueued job.id entry hentry)), ?_⟩
    exact halike.1.2.trans (h.runOnce hw hjob)

theorem Once.turn (h : Once n key spec j job w) (hjob : job.OneShot key spec j) (now : Int) :
    Once n key spec j job { w with
      manager := { w.manager with engine := (w.manager.engine.turn now).2 }
      executing := w.executing ++ (w.manager.engine.turn now).1
      executed := w.executed ++ (w.manager.engine.turn now).1 } where
  good := (h.good.step (.turn now)).1
  versioned := h.versioned.renews (Step.turn now).renews
  installed := ⟨h.installed.told, h.installed.alike, h.installed.only⟩
  count := by
    have hcount := h.count
    simp only [executions, List.countP_append] at hcount ⊢
    rcases h.installed.turn h.good hjob now with ⟨hfired, hspent⟩ | ⟨hfired, hdue, hspent⟩
    · rw [hfired, Nat.add_zero]
      exact hcount.imp_right fun hcount => ⟨hcount.1, hspent hcount.2⟩
    · have hbefore := hcount.resolve_right fun hcount => hdue hcount.2
      exact .inr ⟨Nat.add_le_add hbefore hfired, hspent⟩

/-! ### What leaves an installed job alone -/

/-- Whether nothing is done to a job that is declared to run once: the status names its id, and has
its outcome if it is not queued; no job is queued for the declaration, what is spent is not
scheduled anew, and the job is not carried out. -/
structure Leaves (key : OwnerKey) (spec : Spec) (j : JobSpec) (id : String) (w w' : World) :
    Prop where
  good : w'.Good
  issued : w.issued.Le w'.issued
  renews : Renews w w'
  told : ∃ c, w'.Tells key spec c ∧ c.Names j id ∧
    (w'.manager.queue.get? id = none → c.state.isTerminal = true)
  queue : ∀ id job, job.owner = key → job.name = j.name →
    w'.manager.queue.get? id = some job → w.manager.queue.get? id = some job
  spent : w.Spent key j.name → w'.Spent key j.name
  executed : w'.executions key j.name = w.executions key j.name

theorem Once.leaves (h : Once n key spec j job w) (hnamed : job.id ≠ "")
    (hleaves : Leaves key spec j job.id w w') : Once n key spec j job w' where
  good := hleaves.good
  versioned := h.versioned.renews hleaves.renews
  installed := by
    refine ⟨hleaves.told, fun queued hqueued => ?_, fun id queued hqueued howner hname => ?_⟩
    · have hissued := hleaves.issued _ _ (h.installed.issued h.good hnamed)
      have howner := hleaves.good.owner_of_issued hissued hqueued
      have hname := hleaves.good.name_of_issued hissued hqueued
      exact h.installed.alike queued (hleaves.queue job.id queued howner hname hqueued)
    · exact h.installed.only id queued (hleaves.queue id queued howner hname hqueued) howner hname
  count := by
    rw [hleaves.executed]
    exact h.count.imp_right fun hcount => ⟨hcount.1, hleaves.spent hcount.2⟩

theorem Bystands.leaves (h : Bystands key spec j w w') (honce : Once n key spec j job w)
    (hnamed : job.id ≠ "") : Leaves key spec j job.id w w' := by
  obtain ⟨hgood, hle⟩ := honce.good.step h.step
  refine ⟨hgood, hle, h.step.renews, ?_, fun id queued howner hname =>
    (h.queue id queued howner hname).1, h.spent, h.executed⟩
  obtain ⟨c, htells, hnames, hqueue⟩ := honce.installed.told
  obtain ⟨c', htells', hnames', hkeeps⟩ := h.told c job.id htells hnames
  refine ⟨c', htells', hnames', fun hnone => hkeeps (hqueue ?_)⟩
  cases hqueued : w.manager.queue.get? job.id with
  | none => rfl
  | some queued =>
    obtain ⟨howner, hname⟩ := honce.installed.same honce.good hnamed hqueued
    have hqueued' := (h.queue job.id queued howner hname).2 hqueued
    exact absurd (hnone.symm.trans hqueued') (Option.some_ne_none queued).symm

theorem Once.amid (h : Once n key spec j job w) (hjob : job.OneShot key spec j)
    (hamid : Amid key spec j w w') : Once n key spec j job w' := by
  cases hamid with
  | turn now => exact h.turn hjob now
  | other hbystands => exact h.leaves hjob.named (hbystands.leaves h hjob.named)

theorem Once.amids (h : Once n key spec j job w) (hjob : job.OneShot key spec j)
    (hamids : Relation.ReflTransGen (Amid key spec j) w w') : Once n key spec j job w' := by
  induction hamids with
  | refl => exact h
  | tail _ hamid ih => exact ih.amid hjob hamid

/-! ### Calls of a reconcile -/

/-- Where a reconcile of the resource has come to that works on a copy with a condition of the
job. -/
structure AtWork (n : Nat) (key : OwnerKey) (spec : Spec) (j : JobSpec) (job : Job) (r : Resource)
    (s : Status) (c : Condition) (w : World) (p : Procedure Desk (Except Fault Unit)) : Prop where
  once : Once n key spec j job w
  copied : Reconcile.Copied r s spec j job.id c
  keeps : p.Keeps (Reconcile.Allowed key) (fun _ _ => True) w.issued
  handles : p.Asks (Reconcile.Handles key r j job c) fun _ => True
  remembers : w.Remembers key (some r)
  queued : c.state.isTerminal = false → w.manager.queue.get? job.id ≠ none
  told : ∃ c', w.Tells key spec c' ∧ c'.Names j job.id ∧ c'.Keeps c

variable {r : Resource} {s : Status} {c : Condition}

/-- A call of such a reconcile leaves what the manager holds of the job alone, or takes the job out
because the copy has its outcome. -/
theorem sameAt_of_handles {mc : ManagerCall} (h : w.Installed key spec j job) (hw : w.Good)
    (hnamed : job.id ≠ "")
    (hqueued : c.state.isTerminal = false → w.manager.queue.get? job.id ≠ none)
    (hallowed : Reconcile.Allowed key w.issued (.manager mc))
    (hhandles : Reconcile.Handles key r j job c (.manager mc)) (now : Instant) :
    w.manager.SameAt (w.manager.answer now mc).2 job.id ∨
      c.state.isTerminal = true ∧ (w.manager.answer now mc).2.queue.get? job.id = none := by
  cases mc with
  | note owner complaint =>
    obtain ⟨complaints, heq⟩ := w.manager.note_eq owner complaint
    simp only [Manager.answer, heq]
    exact .inl (.refl _ job.id)
  | createOrUpdate job' =>
    by_cases hid : job.id = job'.id
    · -- What is queued under the id of the job is the job itself, and it is there already.
      have hissued := hallowed.1.issued
      rw [← hid, h.issued hw hnamed] at hissued
      have hname := congrArg Prod.snd (Option.some.inj hissued)
      obtain ⟨rfl, hterminal⟩ := hhandles hname.symm
      obtain ⟨queued, hsome⟩ := Option.ne_none_iff_exists'.1 (hqueued hterminal)
      rw [Manager.answer, Manager.createOrUpdate_of_same hsome (h.alike queued hsome)]
      exact .inl (.refl _ job'.id)
    · exact .inl (Manager.sameAt_createOrUpdate hid)
  | delete id =>
    by_cases hid : id = job.id
    · exact .inr ⟨hhandles hid, (Manager.get?_drop _ _ _).trans (if_pos hid.symm)⟩
    · exact .inl (Manager.sameAt_drop (Ne.symm hid))
  | deleteOwnedBy owner => exact hhandles.elim
  | retainOwned owner keep =>
    refine .inl (Manager.sameAt_dropAll fun hmem => ?_)
    obtain ⟨_, _, _, hdropped⟩ := (Manager.mem_idsOf hw.lockstep.keyed).1 hmem
    rw [List.contains_iff_mem.2 hhandles] at hdropped
    exact absurd hdropped (by decide)
  | resubmit id => exact hhandles.elim
  | _ => exact .inl (.refl _ job.id)

/-- Such a call queues no job for the declaration. -/
theorem queue_of_handles {mc : ManagerCall} (h : w.Installed key spec j job)
    (hqueued : c.state.isTerminal = false → w.manager.queue.get? job.id ≠ none)
    (hhandles : Reconcile.Handles key r j job c (.manager mc)) {now : Instant} {id : String}
    {queued : Job} (hname : queued.name = j.name)
    (hafter : (w.manager.answer now mc).2.queue.get? id = some queued) :
    w.manager.queue.get? id = some queued := by
  rcases Manager.queued_answer hafter with hbefore | rfl
  · exact hbefore
  · obtain ⟨rfl, hterminal⟩ := hhandles hname
    obtain ⟨queued', hsome⟩ := Option.ne_none_iff_exists'.1 (hqueued hterminal)
    rwa [Manager.answer, Manager.createOrUpdate_of_same hsome (h.alike queued' hsome)] at hafter

/-- What is spent stays so where queue and agenda say the same about the job, or it is gone. -/
theorem Once.spent (h : Once n key spec j job w) (hgood : w'.Good)
    (hqueue : ∀ id job, job.owner = key → job.name = j.name →
      w'.manager.queue.get? id = some job → w.manager.queue.get? id = some job)
    (hsame : w.manager.SameAt w'.manager job.id ∨ w'.manager.queue.get? job.id = none)
    (hspent : w.Spent key j.name) : w'.Spent key j.name := by
  intro id entry hentry htest
  obtain ⟨howner, hname⟩ := Job.isOf_iff.1 htest
  have hafter := (hgood.lockstep.entries id entry hentry).1
  have hbefore := hqueue id entry.job howner hname hafter
  obtain rfl := h.installed.only id entry.job hbefore howner hname
  rcases hsame with hsame | hnone
  · exact hspent _ entry (hsame.2 ▸ hentry) htest
  · exact absurd (hnone.symm.trans hafter) (Option.some_ne_none _).symm

theorem Tells.resource_eq (h : w.Tells key spec c) (hsame : w'.resources key = w.resources key) :
    w'.Tells key spec c := by
  unfold Tells
  rwa [hsame]

/-- A status that such a reconcile writes names the id of the job still, and has its outcome if the
copy had it. -/
theorem AtWork.told_of_answers {call : DeskCall} {reply : call.Reply}
    {next : call.Reply → Procedure Desk (Except Fault Unit)}
    (h : AtWork n key spec j job r s c w (.ask call next)) (hanswer : w.Answers call reply w') :
    ∃ c', w'.Tells key spec c' ∧ c'.Names j job.id ∧ c'.Keeps c := by
  obtain ⟨c', htells, hnames, hkeeps⟩ := h.told
  by_cases hpatch : ∃ s' version, call = .store (.patchStatus key s' version)
  · obtain ⟨s', version, rfl⟩ := hpatch
    obtain ⟨_, rfl, hadopted, c'', hmem, hnames', hkeeps'⟩ := h.handles.1
    have hwritten : w.Patched key s' r.metadata.resourceVersion w' →
        ∃ c', w'.Tells key spec c' ∧ c'.Names j job.id ∧ c'.Keeps c := by
      intro hpatched
      have hstored := h.remembers.stored hpatched
      obtain ⟨r₁, r', hr₁, hr', hspec, hs'⟩ := hpatched.resource
      obtain rfl := Option.some.inj (hstored.symm.trans hr₁)
      have hadopted' := h.copied.declares ▸ hadopted
      exact ⟨c'', ⟨r', s', hr', hspec.trans h.copied.declares, hs', hadopted', hmem⟩, hnames',
        hkeeps'⟩
    rcases hanswer with ⟨_, hpatched⟩ | ⟨_, _, ⟨rfl, _⟩ | ⟨_, hpatched⟩⟩
    · exact hwritten hpatched
    · exact ⟨c', htells, hnames, hkeeps⟩
    · exact hwritten hpatched
  · have hsame := resources_of_answers hanswer fun s' version heq => hpatch ⟨s', version, heq⟩
    exact ⟨c', htells.resource_eq hsame, hnames, hkeeps⟩

theorem AtWork.leaves {call : DeskCall} {reply : call.Reply}
    {next : call.Reply → Procedure Desk (Except Fault Unit)}
    (h : AtWork n key spec j job r s c w (.ask call next)) (hnamed : job.id ≠ "")
    (hanswer : w.Answers call reply w') :
    Leaves key spec j job.id w w' ∧
      (c.state.isTerminal = false → w'.manager.queue.get? job.id ≠ none) := by
  have honce := h.once
  obtain ⟨hgood, hle, _⟩ := honce.good.answers h.keeps.1.1 hanswer
  have hexecuted : w'.executed = w.executed := by
    refine executed_of_answers hanswer ?_
    rintro jobs rfl
    exact h.handles.1
  have hsame : w.manager.SameAt w'.manager job.id ∨
      c.state.isTerminal = true ∧ w'.manager.queue.get? job.id = none := by
    rcases answer_of_answers hanswer with hmanager | ⟨mc, now, rfl, hmanager⟩
    · rw [hmanager]
      exact .inl (.refl _ job.id)
    · rw [hmanager]
      exact sameAt_of_handles honce.installed honce.good hnamed h.queued h.keeps.1 h.handles.1 now
  have hqueue : ∀ id job, job.owner = key → job.name = j.name →
      w'.manager.queue.get? id = some job → w.manager.queue.get? id = some job := by
    intro id queued _ hname hafter
    rcases answer_of_answers hanswer with hmanager | ⟨mc, now, rfl, hmanager⟩
    · rwa [hmanager] at hafter
    · rw [hmanager] at hafter
      exact queue_of_handles honce.installed h.queued h.handles.1 hname hafter
  have hqueued : c.state.isTerminal = false → w'.manager.queue.get? job.id ≠ none := by
    intro hterminal
    rcases hsame with hsame | ⟨hcontra, _⟩
    · rw [hsame.1]
      exact h.queued hterminal
    · exact absurd (hterminal.symm.trans hcontra) (by decide)
  refine ⟨⟨hgood, hle, renews_of_answers hanswer, ?_, hqueue, ?_, ?_⟩, hqueued⟩
  · obtain ⟨c', htells, hnames, hkeeps⟩ := h.told_of_answers hanswer
    refine ⟨c', htells, hnames, fun hnone => hkeeps ?_⟩
    cases hterminal : c.state.isTerminal with
    | true => rfl
    | false => exact absurd hnone (hqueued hterminal)
  · exact honce.spent hgood hqueue (hsame.imp_right And.right)
  · rw [executions, executions, hexecuted]

theorem AtWork.answers {call : DeskCall} {reply : call.Reply}
    {next : call.Reply → Procedure Desk (Except Fault Unit)}
    (h : AtWork n key spec j job r s c w (.ask call next)) (hnamed : job.id ≠ "")
    (hanswer : w.Answers call reply w') :
    AtWork n key spec j job r s c w' (next reply) := by
  obtain ⟨hleaves, hqueued⟩ := h.leaves hnamed hanswer
  obtain ⟨_, hle, hfits⟩ := h.once.good.answers h.keeps.1.1 hanswer
  exact ⟨h.once.leaves hnamed hleaves, h.copied, h.keeps.2 _ reply hle hfits, h.handles.2 reply,
    h.remembers.renews (renews_of_answers hanswer), hqueued, h.told_of_answers hanswer⟩

theorem AtWork.amid {p : Procedure Desk (Except Fault Unit)}
    (h : AtWork n key spec j job r s c w p) (hjob : job.OneShot key spec j)
    (hamid : Amid key spec j w w') : AtWork n key spec j job r s c w' p := by
  have hrenews := hamid.step.renews
  obtain ⟨_, hle⟩ := h.once.good.step hamid.step
  have hkeeps := h.keeps.mono (fun _ hc => hc.mono hle) (fun _ _ => trivial) hle
  refine ⟨h.once.amid hjob hamid, h.copied, hkeeps, h.handles, h.remembers.renews hrenews,
    fun hterminal => ?_, ?_⟩
  · obtain ⟨queued, hqueued⟩ := Option.ne_none_iff_exists'.1 (h.queued hterminal)
    cases hamid with
    | turn now => exact h.queued hterminal
    | other hbystands =>
      obtain ⟨howner, hname⟩ := h.once.installed.same h.once.good hjob.named hqueued
      rw [(hbystands.queue job.id queued howner hname).2 hqueued]
      exact Option.some_ne_none queued
  · obtain ⟨c', htells, hnames, hkeeps'⟩ := h.told
    cases hamid with
    | turn now => exact ⟨c', htells, hnames, hkeeps'⟩
    | other hbystands =>
      obtain ⟨c'', htells', hnames', hkeeps''⟩ := hbystands.told c' job.id htells hnames
      exact ⟨c'', htells', hnames', fun hterminal => hkeeps'' (hkeeps' hterminal)⟩

/-- What a reconcile has to work on when the job is installed. -/
theorem Once.atWork (h : Once n key spec j job w) (hjob : job.OneShot key spec j) :
    ∃ r s c, w.resources key = some r ∧
      AtWork n key spec j job r s c w (Reconcile.settleResource key r) := by
  obtain ⟨c, htells, hnames, hqueue⟩ := h.installed.told
  obtain ⟨r, s, hr, hkey, hcopied⟩ := htells.copied h.good hnames hjob.named
  have hsound := h.good.resources key r hr
  refine ⟨r, s, c, hr, h, hcopied, Reconcile.keeps_settleResource hsound,
    Reconcile.asks_handles hcopied hjob hkey, hr ▸ h.versioned.remembers key,
    fun hterminal hnone => ?_, c, htells, hnames, fun hterminal => hterminal⟩
  exact absurd (hterminal.symm.trans (hqueue hnone)) (by decide)

theorem Once.reconcile {deeds : List Deed} {q : Procedure Desk (Except Fault Unit)}
    (h : Once n key spec j job w) (hjob : job.OneShot key spec j)
    (htrace : Trace (Amid key spec j) w (reconcile key) deeds w' q) : Once n key spec j job w' := by
  rcases htrace.of_ask with ⟨hamids, _⟩ | ⟨w₁, reply, w₂, rest, hamids, hfetched, _, hrest⟩
  · exact h.amids hjob hamids
  · have honce := h.amids hjob hamids
    obtain ⟨rfl, rfl | ⟨e, rfl⟩⟩ := hfetched
    · obtain ⟨r, s, c, hr, hwork⟩ := honce.atWork hjob
      rw [hr] at hrest
      obtain ⟨hend, _⟩ := hrest.invariant (fun _ _ _ h hamid => h.amid hjob hamid)
        (fun _ _ _ _ _ h hanswer => h.answers hjob.named hanswer) hwork
      exact hend.once
    · exact honce.amids hjob hrest.of_done.1

theorem Once.season (h : Once n key spec j job w) (hjob : job.OneShot key spec j)
    (hseason : Season key spec j w w') : Once n key spec j job w' := by
  induction hseason with
  | done w => exact h
  | amid hamid _ ih => exact ih (h.amid hjob hamid)
  | reconcile htrace _ ih => exact ih (h.reconcile hjob htrace)

/-! ### From a reconcile on -/

theorem Versioned.exec {α : Type} {p : Procedure Desk α} {own : List (World × World)} {a : α}
    (h : w.Versioned) (hexec : Exec (Aside key) w p own a w') : w'.Versioned := by
  induction hexec with
  | done a => exact h
  | between haside _ ih => exact ih (h.renews haside.step.renews)
  | ask hanswer _ ih => exact ih (h.renews (renews_of_answers hanswer))

/-- A reconcile that succeeds installs a job that is declared to run once. -/
theorem installed_of_reconcile {own : List (World × World)} {fresh : Job} (hw : Reachable w)
    (hexec : Exec (Aside key) w (CronScale.reconcile key) own (.ok ()) w')
    (hresource : w.resources key = some r) (hnames : (r.spec.jobs.map JobSpec.name).Nodup)
    (hj : j ∈ r.spec.jobs) (honce : j.runOnce = true) (hbuild : Job.build r j "" = .ok fresh) :
    ∃ job, job.OneShot key r.spec j ∧
      Once (w'.executions key j.name) key r.spec j job w' := by
  have hgood := good_of_reachable hw
  have hfiled := (hgood.resources key r hresource).filed
  obtain ⟨c, heffected⟩ := effected_of_reconcile hgood hexec hresource hnames hj hbuild
  have hgood' := heffected.good
  have hsettled := heffected.settled
  have hissued := heffected.told.issued hgood' heffected.names heffected.named
  have hjob : Job.OneShot { fresh with id := c.jobId } key r.spec j := {
    names := hnames
    declared := hj
    once := honce
    named := heffected.named
    built := by
      intro r₁ hkey₁ hspec₁
      rw [Reconcile.build_congr (hkey₁.trans hfiled.symm) hspec₁]
      exact Reconcile.build_id hbuild c.jobId }
  have hinstalled : w'.Installed key r.spec j { fresh with id := c.jobId } := by
    refine ⟨⟨c, heffected.told, heffected.names, fun hnone => ?_⟩, fun queued hqueued => ?_,
      heffected.only⟩
    · by_cases hran : Reconcile.HasRun r.spec (r.status.getD .initial) j
      · exact ((hsettled.ran fresh hbuild).1 hran).2
      · obtain ⟨queued, hqueued, _⟩ := hsettled.queued hran fresh hbuild
        have hsome := (jobs_view_eq_some.1 hqueued).1
        exact absurd (hnone.symm.trans hsome) (Option.some_ne_none queued).symm
    · have hview := hgood'.jobs_of_issued hissued hqueued
      by_cases hran : Reconcile.HasRun r.spec (r.status.getD .initial) j
      · have hnone := hsettled.run hran fresh hbuild
        exact absurd (hnone.symm.trans hview) (Option.some_ne_none queued).symm
      · obtain ⟨queued', hqueued', hdiffers⟩ := hsettled.queued hran fresh hbuild
        obtain rfl := Option.some.inj (hview.symm.trans hqueued')
        exact hdiffers
  exact ⟨_, hjob, hgood', (versioned_of_reachable hw).exec hexec, hinstalled, .inl (Nat.le_refl _)⟩

/-- After a reconcile that succeeds, a job that is declared to run once is carried out at most once
more, and then it is spent, whatever the reconciles that follow are answered, wherever they are left
off and whenever the engine has its turns. -/
theorem executed_at_most_once {w₁ w₂ : World} {own : List (World × World)} {fresh : Job}
    (hw : Reachable w) (hexec : Exec (Aside key) w (CronScale.reconcile key) own (.ok ()) w₁)
    (hresource : w.resources key = some r) (hnames : (r.spec.jobs.map JobSpec.name).Nodup)
    (hj : j ∈ r.spec.jobs) (honce : j.runOnce = true) (hbuild : Job.build r j "" = .ok fresh)
    (hseason : Season key r.spec j w₁ w₂) :
    w₂.executions key j.name ≤ w₁.executions key j.name + 1 ∧
      (w₁.executions key j.name < w₂.executions key j.name → w₂.Spent key j.name) := by
  obtain ⟨job, hjob, hstart⟩ := installed_of_reconcile hw hexec hresource hnames hj honce hbuild
  rcases (hstart.season hjob hseason).count with hcount | ⟨hcount, hspent⟩
  · exact ⟨Nat.le_succ_of_le hcount, fun hmore => absurd hcount (Nat.not_le.2 hmore)⟩
  · exact ⟨hcount, fun _ => hspent⟩

/-- The start of the engine changes nothing about a job. -/
theorem bystands_start (w : World) (now : Int) : Bystands key spec j w { w with
    manager := { w.manager with engine := w.manager.engine.start now } } where
  step := .start now
  told := fun c _ htells hnames => ⟨c, htells, hnames, fun hterminal => hterminal⟩
  queue := fun _ _ _ _ => Iff.rfl
  spent := fun hspent => hspent
  executed := rfl

theorem afterMidnight_executed : ∃ own w₁ w₂,
    Exec (Aside (shop afterMidnight).key) (opened afterMidnight)
      (reconcile (shop afterMidnight).key) own (.ok ()) w₁ ∧
    Season (shop afterMidnight).key (shop afterMidnight).spec afterMidnight w₁ w₂ ∧
    w₁.executions (shop afterMidnight).key "up" = 0 ∧
    w₂.executions (shop afterMidnight).key "up" = 1 ∧
    w₂.Spent (shop afterMidnight).key "up" := by
  have hbuild : (Job.build (shop afterMidnight) afterMidnight "").toOption.isSome = true := by
    decide +kernel
  have hsucceeds : succeeds ⟨0, 0⟩ (reconcile (shop afterMidnight).key) (opened afterMidnight) =
      true := by decide +kernel
  have hfires : (smooth? ⟨0, 0⟩ (reconcile (shop afterMidnight).key) (opened afterMidnight)).any
      (fun result => decide (result.2.executions (shop afterMidnight).key "up" = 0 ∧
        (result.2.started (60 * nanosPerSecond)).executions (shop afterMidnight).key "up" = 1)) =
      true := by decide +kernel
  obtain ⟨fresh, hfresh⟩ := Option.isSome_iff_exists.1 hbuild
  obtain ⟨w₁, hsmooth⟩ := smooth?_of_succeeds hsucceeds
  obtain ⟨own, hexec⟩ := exec_of_smooth? (Aside (shop afterMidnight).key) hsmooth
  rw [hsmooth, Option.any_some, decide_eq_true_eq] at hfires
  have hseason : Season (shop afterMidnight).key (shop afterMidnight).spec afterMidnight w₁
      (w₁.started (60 * nanosPerSecond)) :=
    .amid (.other (bystands_start w₁ _)) (.amid (.turn _) (.done _))
  obtain ⟨_, hspent⟩ := executed_at_most_once (reachable_opened afterMidnight) hexec rfl (by decide)
    List.mem_cons_self rfl (eq_ok_of_toOption hfresh) hseason
  refine ⟨own, w₁, _, hexec, hseason, hfires.1, hfires.2, hspent ?_⟩
  show w₁.executions (shop afterMidnight).key "up" < _
  rw [hfires.1]
  exact Nat.lt_of_lt_of_eq Nat.zero_lt_one hfires.2.symm

/-- The world in which that resource was reconciled at midnight, the job was missed, lost jobs were
collected at one, and the engine went on and came to the next night. -/
def missed (j : JobSpec) : World :=
  (((opened j).carriedOut ⟨0, 0⟩ (task (reconcile (shop j).key))).carriedOut ⟨3600, 0⟩
    (task sweep)).started ((86400 + 60) * nanosPerSecond)

theorem reachable_missed (j : JobSpec) : Reachable (missed j) := by
  have hreconciled := reachable_carriedOut (reachable_opened j) (.inl ⟨(shop j).key, rfl⟩) ⟨0, 0⟩
  exact reachable_started (reachable_carriedOut hreconciled (.inr (.inl rfl)) ⟨3600, 0⟩) _

/-- A job that is declared to run once is carried out twice if it was missed. -/
theorem missed_executed_twice : afterMidnight.runOnce = true ∧ Reachable (missed afterMidnight) ∧
    (∃ r, (missed afterMidnight).resources (shop afterMidnight).key = some r ∧
      r.spec = (shop afterMidnight).spec) ∧
    (missed afterMidnight).executions (shop afterMidnight).key "up" = 2 := by
  have hspec : ((missed afterMidnight).resources (shop afterMidnight).key).any
      (fun r => decide (r.spec = (shop afterMidnight).spec)) = true := by decide +kernel
  have htwice : (missed afterMidnight).executions (shop afterMidnight).key "up" = 2 := by
    decide +kernel
  obtain ⟨r, hr, hsame⟩ := (Option.any_eq_true _ _).1 hspec
  exact ⟨rfl, reachable_missed afterMidnight, ⟨r, hr, of_decide_eq_true hsame⟩, htwice⟩

end World

end CronScale
