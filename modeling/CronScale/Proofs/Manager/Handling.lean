import CronScale.Proofs.Manager.Calls
import CronScale.Proofs.Manager.Retired
/-!
# What a reconcile does about a job that runs once

A reconcile works on a copy of its resource. If the status in the copy has a condition for a job
that is declared to run once, and the condition names the id of the job, then whatever is answered,
the reconcile puts no other job of this name into the queue, takes the job out only if the condition
has an outcome and puts it in only if it has none, and every status that it writes names the id
still and loses no outcome (`Reconcile.asks_handles`).
-/

namespace CronScale

open CronScale.Calendar

/-- Whether a job is the one to be queued where a specification declares that it runs once. -/
structure Job.OneShot (job : Job) (key : OwnerKey) (spec : Spec) (j : JobSpec) : Prop where
  names : (spec.jobs.map JobSpec.name).Nodup
  declared : j ∈ spec.jobs
  once : j.runOnce = true
  named : job.id ≠ ""
  built : ∀ r, r.key = key → r.spec = spec → Job.build r j job.id = .ok job

/-- Whether a condition is that of a declared job with an id. -/
structure Condition.Names (c : Condition) (j : JobSpec) (id : String) : Prop where
  name : c.name = j.name
  jobId : c.jobId = id
  unchanged : Reconcile.unchanged c j = true

/-- Whether a condition has an outcome if another one has. -/
def Condition.Keeps (c c' : Condition) : Prop :=
  c'.state.isTerminal = true → c.state.isTerminal = true

namespace Reconcile

variable {key : OwnerKey} {r : Resource} {s : Status} {spec : Spec} {j : JobSpec} {job : Job}
  {c : Condition}

/-- Whether a copy of a resource has a status with a condition for a declared job. -/
structure Copied (r : Resource) (s : Status) (spec : Spec) (j : JobSpec) (id : String)
    (c : Condition) : Prop where
  declares : r.spec = spec
  status : r.status = some s
  adopted : s.globalChange spec = false
  mem : c ∈ s.conditions
  names : c.Names j id
  distinct : (s.conditions.map Condition.name).Nodup
  ids : ∀ c' ∈ s.conditions, c'.jobId = id → c'.name = j.name

/-- What a reconcile that works on such a copy may ask for. -/
def Handles (key : OwnerKey) (r : Resource) (j : JobSpec) (job : Job) (c : Condition) :
    DeskCall → Prop
  | .store (.fetch _) => False
  | .store (.patchStatus k s version) => k = key ∧ version = r.metadata.resourceVersion ∧
    s.globalChange r.spec = false ∧ ∃ c' ∈ s.conditions, c'.Names j job.id ∧ c'.Keeps c
  | .manager (.createOrUpdate job') =>
    job'.name = j.name → job' = job ∧ c.state.isTerminal = false
  | .manager (.delete id) => id = job.id → c.state.isTerminal = true
  | .manager (.deleteOwnedBy _) => False
  | .manager (.retainOwned _ keep) => job.id ∈ keep
  | .manager (.resubmit _) => False
  | .startReruns _ => False
  | _ => True

theorem Copied.eq {id : String} (h : Copied r s spec j id c) {c' : Condition}
    (hc' : c' ∈ s.conditions) (hid : c'.jobId = id) : c' = c :=
  eq_of_nodup h.distinct hc' h.mem ((h.ids c' hc' hid).trans h.names.name.symm)

theorem Copied.retains {id : String} (h : Copied r s spec j id c)
    (hnames : (spec.jobs.map JobSpec.name).Nodup) (hj : j ∈ spec.jobs) :
    spec.jobs.find? (·.name == c.name) = some j ∧ unchanged c j = true := by
  have hfind := find?_of_nodup hnames hj
  rw [← h.names.name] at hfind
  exact ⟨hfind, h.names.unchanged⟩

/-- A condition whose job is dropped is not the one of the job. -/
theorem Copied.ne_of_dropped {id : String} (h : Copied r s spec j id c)
    (hnames : (spec.jobs.map JobSpec.name).Nodup) (hj : j ∈ spec.jobs) {c' : Condition}
    (hc' : c' ∈ s.conditions)
    (hdropped : ∀ j', spec.jobs.find? (·.name == c'.name) = some j' → unchanged c' j' ≠ true) :
    c'.jobId ≠ id := by
  intro hid
  obtain rfl := h.eq hc' hid
  obtain ⟨hfind, hunchanged⟩ := h.retains hnames hj
  exact hdropped j hfind hunchanged

/-- The condition is retained, and no job is dropped under its id. -/
theorem asks_sift_copied {id : String} {test : DeskCall → Prop} (h : Copied r s spec j id c)
    (hnames : (spec.jobs.map JobSpec.name).Nodup) (hj : j ∈ spec.jobs)
    (hdelete : ∀ id', id' ≠ id → test (.manager (.delete id'))) {cs : List Condition}
    (hcs : cs.Sublist s.conditions) :
    (sift spec cs).Asks test fun p => p.1.Sublist cs ∧ (c ∈ cs → c ∈ p.1) := by
  induction cs with
  | nil => exact ⟨.slnil, fun hc => hc⟩
  | cons c' cs ih =>
    have hc' : c' ∈ s.conditions := hcs.subset List.mem_cons_self
    have ih := ih ((List.sublist_cons_self c' cs).trans hcs)
    have hothers : ∀ {left : List Condition}, c' ≠ c → (c ∈ cs → c ∈ left) →
        c ∈ c' :: cs → c ∈ left := by
      intro left hne hleft hmem
      exact hleft ((List.mem_cons.1 hmem).resolve_left fun heq => hne heq.symm)
    unfold sift
    split
    · rename_i j' hfind
      split
      · refine ih.seq fun p hp => ⟨hp.1.cons_cons c', fun hmem => ?_⟩
        exact (List.mem_cons.1 hmem).elim (fun heq => heq ▸ List.mem_cons_self)
          fun hmem => List.mem_cons_of_mem c' (hp.2 hmem)
      · rename_i hchanged
        have hdropped := h.ne_of_dropped hnames hj hc' fun j'' hfind' =>
          Option.some.inj (hfind.symm.trans hfind') ▸ hchanged
        refine (asks_dropJob (hdelete _ hdropped)).seq fun _ _ => ?_
        refine ih.seq fun p hp => ⟨hp.1.cons c', hothers ?_ hp.2⟩
        rintro rfl
        exact hdropped h.names.jobId
    · rename_i hfind
      have hdropped := h.ne_of_dropped hnames hj hc' fun j'' hfind' =>
        absurd (hfind.symm.trans hfind') (Option.some_ne_none j'').symm
      refine (asks_dropJob (hdelete _ hdropped)).seq fun _ _ => ?_
      refine ih.weaken (fun _ hc => hc) fun p hp => ⟨hp.1.cons c', hothers ?_ hp.2⟩
      rintro rfl
      exact hdropped h.names.jobId

/-- Whether the condition of a declared job in a draft names its id and keeps the outcome of a
former one. -/
def DraftNames (j : JobSpec) (id : String) (c : Condition) (d : Draft) : Prop :=
  ∃ c', d.conditions.find? (·.name == j.name) = some c' ∧ c'.Names j id ∧ c'.Keeps c

theorem DraftNames.alters {id : String} {d d' : Draft} {name : String}
    (h : DraftNames j id c d) (halters : Alters name d d') (hname : name ≠ j.name) :
    DraftNames j id c d' := by
  obtain ⟨c', hfind, hrest⟩ := h
  exact ⟨c', (halters.others j.name hname.symm).trans hfind, hrest⟩

theorem draftNames_put {id : String} (d : Draft) {state : JobState}
    (hterminal : c.state.isTerminal = false) (now : Instant) (message : String) :
    DraftNames j id c (d.put (conditionOf j id state now message)) := by
  refine ⟨_, find?_put d rfl, ⟨rfl, rfl, unchanged_conditionOf j id state now message⟩, ?_⟩
  exact fun h => absurd (hterminal.symm.trans h) (by decide)

theorem handles_submit {d : Draft} (hd : DraftNames j job.id c d)
    (hterminal : c.state.isTerminal = false) (now : Instant) :
    (submit j job now true d).Asks (Handles key r j job c) (DraftNames j job.id c) := by
  refine (Procedure.asks_ask fun _ => ⟨rfl, hterminal⟩).seq fun reply _ => ?_
  cases reply with
  | ok change =>
    show Procedure.Asks _ _ (if change = .unchanged ∧ true then pure d else pure _)
    split
    · exact hd
    · exact draftNames_put d hterminal now _
  | error e => exact draftNames_put d hterminal now _

theorem asks_submit_alters {j' : JobSpec} {job' : Job} {d : Draft} {test : DeskCall → Prop}
    (hsubmit : test (.manager (.createOrUpdate job'))) (now : Instant) (wasRetained : Bool) :
    (submit j' job' now wasRetained d).Asks test (Alters j'.name d) := by
  refine (Procedure.asks_ask hsubmit).seq fun reply _ => ?_
  cases reply with
  | ok change =>
    show Procedure.Asks _ _ (if change = .unchanged ∧ wasRetained then pure d else pure _)
    split
    · exact alters_refl _ d
    · exact alters_put d rfl
  | error e => exact alters_put d rfl

/-- Settling a job changes nothing in a draft but the condition of its name. -/
theorem asks_settleJob_alters {left : List Condition} {j' : JobSpec} {d : Draft}
    {test : DeskCall → Prop} (hclock : test (.manager .clock))
    (hqueued : test (.manager (.queuedId key j'.name))) (hfresh : test (.freshId key j'.name))
    (hdelete : ∀ kept ∈ left, kept.name = j'.name → test (.manager (.delete kept.jobId)))
    (hsubmit : ∀ job', job'.owner = r.key → job'.name = j'.name →
      test (.manager (.createOrUpdate job'))) :
    (settleJob key r left j' d).Asks test (Alters j'.name d) := by
  refine (Procedure.asks_ask hclock).seq fun now _ => ?_
  split
  · unfold refuse
    simp only
    split
    · exact alters_refl _ d
    · exact alters_put d rfl
  · rename_i job' hbuild
    obtain ⟨_, howner, hname, _⟩ := job_of_build hbuild
    split
    · rename_i kept hkept
      obtain ⟨hmem, hkeptName⟩ := find?_eq_some_name (Option.filter_eq_some_iff.1 hkept).1
      unfold settleKept
      split
      · exact (Procedure.asks_ask (hdelete kept hmem hkeptName)).seq fun _ _ =>
          alters_refl _ d
      · exact asks_submit_alters (hsubmit { job' with id := kept.jobId } howner hname) now true
    · refine (asks_chooseId hqueued hfresh).seq fun p hp => ?_
      exact (asks_submit_alters (hsubmit { job' with id := p.1 } howner hname) now _).weaken
        (fun _ hc => hc) fun d' halters => halters.after hp

/-- Whatever may be asked for about each single job may be asked for about all of them. -/
theorem asks_settleJobs_each {left : List Condition} {test : DeskCall → Prop}
    (hclock : test (.manager .clock)) (hqueued : ∀ name, test (.manager (.queuedId key name)))
    (hfresh : ∀ name, test (.freshId key name))
    (hdelete : ∀ kept ∈ left, test (.manager (.delete kept.jobId)))
    (hsubmit : ∀ job, job.owner = r.key → test (.manager (.createOrUpdate job)))
    (js : List JobSpec) (d : Draft) :
    (settleJobs key r left js d).Asks test fun _ => True := by
  induction js generalizing d with
  | nil => trivial
  | cons j js ih =>
    have hsettles : (settleJob key r left j d).Asks test (Alters j.name d) :=
      asks_settleJob_alters hclock (hqueued j.name) (hfresh j.name)
        (fun kept hkept _ => hdelete kept hkept) fun job howner _ => hsubmit job howner
    exact hsettles.seq fun d' _ => ih d'

theorem handles_settleJob {left : List Condition} {d : Draft} (h : Copied r s spec j job.id c)
    (hjob : job.OneShot key spec j) (hkey : r.key = key)
    (hfind : left.find? (·.name == j.name) = some c) (hd : DraftNames j job.id c d) :
    (settleJob key r left j d).Asks (Handles key r j job c) (DraftNames j job.id c) := by
  have hbuild := build_id (hjob.built r hkey h.declares) ""
  have honce : j.isRunOnce = true := by simp only [JobSpec.isRunOnce, hjob.once, Bool.true_or]
  have hkept : (some c).filter (·.jobId != "") = some c := by
    rw [Option.filter_some, h.names.jobId, if_pos (bne_iff_ne.2 hjob.named)]
  refine (Procedure.asks_ask trivial).seq fun now _ => ?_
  simp only [hbuild, hfind, hkept, settleKept, honce, Bool.true_and, h.names.jobId]
  split
  · rename_i hterminal
    exact (Procedure.asks_ask fun _ => hterminal).seq fun _ _ => hd
  · rename_i hterminal
    exact handles_submit hd (Bool.not_eq_true _ ▸ hterminal) now

theorem handles_settleJob_other {left : List Condition} {j' : JobSpec} {d : Draft}
    (hleft : ∀ c' ∈ left, c'.jobId = job.id → c'.name = j.name) (hname : j'.name ≠ j.name)
    (hd : DraftNames j job.id c d) :
    (settleJob key r left j' d).Asks (Handles key r j job c) (DraftNames j job.id c) := by
  refine (asks_settleJob_alters trivial trivial trivial (fun kept hmem hkept hid => ?_)
    fun job' _ hjob' heq => ?_).weaken (fun _ hc => hc) fun d' halters => hd.alters halters hname
  · exact absurd (hkept.symm.trans (hleft kept hmem hid)) hname
  · exact absurd (hjob'.symm.trans heq) hname

theorem handles_settleJobs {left : List Condition} {js : List JobSpec} {d : Draft}
    (h : Copied r s spec j job.id c) (hjob : job.OneShot key spec j) (hkey : r.key = key)
    (hleft : left.Sublist s.conditions) (hmem : c ∈ left) (hjs : ∀ j' ∈ js, j' ∈ spec.jobs)
    (hd : DraftNames j job.id c d) :
    (settleJobs key r left js d).Asks (Handles key r j job c) (DraftNames j job.id c) := by
  have hfind := find?_of_nodup (h.distinct.sublist (hleft.map _)) hmem
  rw [h.names.name] at hfind
  induction js generalizing d with
  | nil => exact hd
  | cons j' js ih =>
    obtain ⟨hj', hjs⟩ := List.forall_mem_cons.1 hjs
    have hsettles : (settleJob key r left j' d).Asks (Handles key r j job c)
        (DraftNames j job.id c) := by
      by_cases hname : j'.name = j.name
      · obtain rfl := eq_of_nodup hjob.names hj' hjob.declared hname
        exact handles_settleJob h hjob hkey hfind hd
      · exact handles_settleJob_other (fun c' hc' => h.ids c' (hleft.subset hc')) hname hd
    exact hsettles.seq fun d' hd' => ih hjs hd'

/-- What a reconcile asks for that works on a copy with a condition for a job that runs once. -/
theorem asks_handles (h : Copied r s spec j job.id c) (hjob : job.OneShot key spec j)
    (hkey : r.key = key) :
    (settleResource key r).Asks (Handles key r j job c) fun _ => True := by
  have hstatus : r.status.getD .initial = s := by rw [h.status, Option.getD_some]
  obtain rfl := h.declares
  refine (asks_complain trivial fun _ => trivial).seq fun _ _ => ?_
  simp only [hstatus, divide, h.adopted, Bool.false_eq_true, if_false]
  refine (asks_sift_copied h hjob.names hjob.declared (fun id' hne hid => absurd hid hne)
    (.refl _)).seq fun p hp => ?_
  obtain ⟨left, reusable⟩ := p
  obtain ⟨hleft, hmem⟩ := hp
  have hfind := find?_of_nodup (h.distinct.sublist (hleft.map _)) (hmem h.mem)
  rw [h.names.name] at hfind
  have hstart : ∀ changed, DraftNames j job.id c ⟨left, reusable, changed⟩ :=
    fun _ => ⟨c, hfind, h.names, fun hterminal => hterminal⟩
  refine (handles_settleJobs h hjob hkey hleft (hmem h.mem) (fun _ hj' => hj')
    (hstart _)).seq fun d hd => ?_
  obtain ⟨c', hfind', hnames, hkeeps⟩ := hd
  obtain ⟨hc', _⟩ := find?_eq_some_name hfind'
  have hkept : job.id ∈ idsNamed d.conditions :=
    mem_idsNamed.2 ⟨c', hc', hnames.jobId, hjob.named⟩
  refine (Procedure.asks_ask hkept).seq fun _ _ => ?_
  split
  · have hwritten : c' ∈ (adopt r.spec s d.conditions).conditions := by rwa [conditions_adopt]
    refine (Procedure.asks_ask ⟨rfl, rfl, globalChange_adopt _ _ _, c', hwritten, hnames,
      hkeeps⟩).seq fun reply _ => ?_
    cases reply with
    | ok u => trivial
    | error e => trivial
  · trivial

end Reconcile

namespace World

variable {w w' : World} {key : OwnerKey} {spec : Spec} {j : JobSpec} {c : Condition} {id : String}

theorem Tells.issued (h : w.Tells key spec c) (hw : w.Good) (hnames : c.Names j id)
    (hnamed : id ≠ "") : w.issued id = some (key, j.name) := by
  obtain ⟨r, s, hr, _, hs, _, hc⟩ := h
  have hsound := ((hw.resources key r hr).status s hs).conditions c hc
  rw [← hnames.jobId, ← hnames.name]
  exact hsound.issued (hnames.jobId ▸ hnamed)

/-- The stored resource is a copy with the condition that it tells. -/
theorem Tells.copied (h : w.Tells key spec c) (hw : w.Good) (hnames : c.Names j id)
    (hnamed : id ≠ "") :
    ∃ r s, w.resources key = some r ∧ r.key = key ∧ Reconcile.Copied r s spec j id c := by
  have hissued := h.issued hw hnames hnamed
  obtain ⟨r, s, hr, hspec, hs, hadopted, hc⟩ := h
  have hstatus := (hw.resources key r hr).status s hs
  refine ⟨r, s, hr, (hw.resources key r hr).filed, hspec, hs, hadopted, hc, hnames,
    hstatus.distinct, fun c' hc' hid => ?_⟩
  have hissued' := (hstatus.conditions c' hc').issued (hid ▸ hnamed)
  rw [hid, hissued] at hissued'
  exact (congrArg Prod.snd (Option.some.inj hissued')).symm

/-- What a reconcile that succeeds leaves of a declared job that can be built. -/
structure Effected (w : World) (key : OwnerKey) (r : Resource) (j : JobSpec) (c : Condition) :
    Prop where
  good : w.Good
  told : w.Tells key r.spec c
  names : c.Names j c.jobId
  named : c.jobId ≠ ""
  settled : Reconcile.Settled r (r.status.getD .initial) j (w.view key).jobs c
  only : ∀ id job, w.manager.queue.get? id = some job → job.owner = key → job.name = j.name →
    id = c.jobId

theorem effected_of_reconcile {r : Resource} {own : List (World × World)} {fresh : Job}
    (hw : w.Good) (hexec : Exec (Aside key) w (CronScale.reconcile key) own (.ok ()) w')
    (hresource : w.resources key = some r) (hnames : (r.spec.jobs.map JobSpec.name).Nodup)
    (hj : j ∈ r.spec.jobs) (hbuild : Job.build r j "" = .ok fresh) :
    ∃ c, w'.Effected key r j c := by
  obtain ⟨⟨hleaves, hadopts⟩, hgood, _⟩ :=
    hexec.ensures hw (keeps_reconcile key w.issued) (ensures_reconcile_adopts hresource hnames)
  obtain ⟨r', s', hr', hspec, hs', hresult⟩ := hleaves rfl
  obtain ⟨c, hc, hname, hsettled⟩ := hresult.settled j hj
  have hnamed := Reconcile.named_of_build hbuild (hresult.sound c hc) hname hsettled.declared
  refine ⟨c, hgood, ⟨r', s', hr', hspec, hs', hadopts rfl r' s' hr' hs', hc⟩,
    ⟨hname, rfl, hsettled.declared⟩, hnamed, hsettled, fun id job hjob howner hname' => ?_⟩
  obtain ⟨c', hc', rfl, hne⟩ := hresult.only id job (jobs_view_eq_some.2 ⟨hjob, howner⟩)
  have hsame := name_of_condition hgood (hresult.sound c' hc') hne hjob
  obtain rfl := eq_of_nodup hresult.distinct hc' hc (hsame.symm.trans (hname'.trans hname.symm))
  rfl

end World

end CronScale
