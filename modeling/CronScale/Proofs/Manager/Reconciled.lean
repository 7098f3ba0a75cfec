import CronScale.Proofs.Manager.Settling
import CronScale.Proofs.Manager.Smooth
/-!
# What a reconcile leaves behind

A reconcile that succeeds, with nothing else touching the resource or its jobs, leaves a status with
one condition for each declared job and a queue with one job for each of them that can be built and
has not run (`World.Exec.settled`), whatever state earlier reconciles, lost outcomes and restarts
have left.
-/

namespace CronScale

open CronScale.Calendar

namespace Reconcile

/-- How far a reconcile has come when only some declared jobs are left to do. -/
structure Progress (r : Resource) (s : Status) (todo : List JobSpec) (v : View) (d : Draft) :
    Prop where
  draft : DraftSound v.issued r d
  declared : ∀ c ∈ d.conditions, ∃ j ∈ r.spec.jobs, j.name = c.name
  awaits : ∀ j ∈ todo, Awaits r s j v.jobs d
  settled : ∀ j ∈ r.spec.jobs, j ∉ todo →
    ∃ c, d.conditions.find? (·.name == j.name) = some c ∧ Settled r s j v.jobs c
  unchanged : d.changed = false → s.globalChange r.spec = false ∧ d.conditions = s.conditions

/-- What is left when a reconcile is done: each declared job is settled, and no job is queued that
the conditions do not name. -/
structure Result (r : Resource) (s : Status) (cs : List Condition) (v : View) : Prop where
  distinct : (cs.map Condition.name).Nodup
  sound : ∀ c ∈ cs, c.Sound v.issued r.key (some r.spec.target)
  declared : ∀ c ∈ cs, ∃ j ∈ r.spec.jobs, j.name = c.name
  settled : ∀ j ∈ r.spec.jobs, ∃ c ∈ cs, c.name = j.name ∧ Settled r s j v.jobs c
  only : ∀ id job, v.jobs id = some job → ∃ c ∈ cs, c.jobId = id ∧ id ≠ ""

variable {key : OwnerKey} {v v' : View} {r : Resource} {s : Status} {j : JobSpec}
  {js : List JobSpec} {d d' : Draft}

/-- What is settled stays so while jobs of other names are brought into effect. -/
theorem Settled.brings {j' : JobSpec} {c : Condition} (h : Settled r s j' v.jobs c)
    (hbrings : Brings key r s j v d v' d') (hne : j'.name ≠ j.name)
    (hc : c.jobId ≠ "" → v'.issued c.jobId = some (key, j'.name))
    (hnamed : ∀ job, Job.build r j' "" = .ok job → c.jobId ≠ "") : Settled r s j' v'.jobs c := by
  have hsame : ∀ job, Job.build r j' "" = .ok job → v'.jobs c.jobId = v.jobs c.jobId := by
    intro job hbuild
    refine hbrings.jobs c.jobId fun heq => hne ?_
    rw [hc (hnamed job hbuild)] at heq
    exact (Prod.mk.inj (Option.some.inj heq)).2
  refine ⟨h.declared, h.unbuilt, h.ran, h.kept, fun hrun job hbuild => ?_,
    fun hrun job hbuild => ?_⟩
  · rw [hsame job hbuild]
    exact h.run hrun job hbuild
  · rw [hsame job hbuild]
    exact h.queued hrun job hbuild

theorem Progress.step (h : Progress r s (j :: js) v d) (hkey : r.key = key)
    (halike : r.spec.Alike) (hjs : (j :: js).Sublist r.spec.jobs)
    (hbrings : Brings key r s j v d v' d') (hd' : DraftSound v'.issued r d') :
    Progress r s js v' d' := by
  have hj : j ∈ r.spec.jobs := hjs.subset List.mem_cons_self
  -- What was settled for a job of another name is not touched when `j` has its turn.
  have hothers : ∀ j' ∈ r.spec.jobs, j'.name ≠ j.name → ∀ c,
      d.conditions.find? (·.name == j'.name) = some c → Settled r s j' v.jobs c →
        ∃ c, d'.conditions.find? (·.name == j'.name) = some c ∧ Settled r s j' v'.jobs c := by
    intro j' hj' hne c hfind hsettled
    have hfind' := (hbrings.alters.others _ hne).trans hfind
    obtain ⟨hmem, hname⟩ := find?_eq_some_name hfind'
    have hsound := hd'.conditions c hmem
    refine ⟨c, hfind', hsettled.brings hbrings hne (fun hid => ?_) fun job hbuild => ?_⟩
    · rw [hsound.issued hid, hkey, hname]
    · exact named_of_build hbuild hsound hname hsettled.declared
  refine ⟨hd', fun c hc => ?_, fun j' hj' => ?_, fun j' hj' hdone => ?_, fun hchanged => ?_⟩
  · rcases hbrings.alters.named c hc with hc | hname
    · exact h.declared c hc
    · exact ⟨j, hj, hname.symm⟩
  · have hmem : j' ∈ r.spec.jobs := hjs.subset (List.mem_cons_of_mem j hj')
    by_cases hname : j'.name = j.name
    · obtain rfl := halike j' hmem j hj hname
      exact .inr hbrings.settled
    · rcases h.awaits j' (List.mem_cons_of_mem j hj') with huntouched | ⟨c, hfind, hsettled⟩
      · exact .inl ((hbrings.alters.others _ hname).trans huntouched)
      · exact .inr (hothers j' hmem hname c hfind hsettled)
  · by_cases heq : j' = j
    · exact heq ▸ hbrings.settled
    · have hne : j'.name ≠ j.name := fun hname => heq (halike j' hj' j hj hname)
      have hnot : j' ∉ j :: js := by
        rw [List.mem_cons, not_or]
        exact ⟨heq, hdone⟩
      obtain ⟨c, hfind, hsettled⟩ := h.settled j' hj' hnot
      exact hothers j' hj' hne c hfind hsettled
  · obtain ⟨hchanged, hconditions⟩ := hbrings.alters.unchanged hchanged
    rw [hconditions]
    exact h.unchanged hchanged

/-- Whether a property of what is left to do, the view and the draft is kept by every turn of a
declared job, and by what happens after the last one. -/
structure Abides (key : OwnerKey) (r : Resource) (s : Status)
    (inv : List JobSpec → View → Draft → Prop) : Prop where
  turn : ∀ j js v d v' d', (j :: js).Sublist r.spec.jobs → v.issued.Le v'.issued →
    Brings key r s j v d v' d' → DraftSound v'.issued r d' → inv (j :: js) v d → inv js v' d'
  grows : ∀ v v' d, v.Grows v' → inv [] v d → inv [] v' d

theorem abides_true (key : OwnerKey) (r : Resource) (s : Status) :
    Abides key r s fun _ _ _ => True :=
  ⟨fun _ _ _ _ _ _ _ _ _ _ _ => trivial, fun _ _ _ _ _ => trivial⟩

theorem ensures_settleJobs {inv : List JobSpec → View → Draft → Prop} (hkey : r.key = key)
    (halike : r.spec.Alike) (hdistinct : (s.conditions.map Condition.name).Nodup)
    (hleft : ∀ c ∈ retained r.spec s, c.Sound v.issued r.key (some r.spec.target))
    (hjs : js.Sublist r.spec.jobs) (h : Progress r s js v d) (habides : Abides key r s inv)
    (hinv : inv js v d) :
    (settleJobs key r (retained r.spec s) js d).Ensures key
      (fun v' d' => v'.resource = v.resource ∧ Progress r s [] v' d' ∧ inv [] v' d') v := by
  induction js generalizing v d with
  | nil =>
    refine Procedure.ensures_pure fun v' hgrows =>
      ⟨hgrows.resource, ?_, habides.grows v v' d hgrows hinv⟩
    refine ⟨h.draft.mono hgrows.issued, h.declared, fun _ hj => absurd hj List.not_mem_nil, ?_,
      h.unchanged⟩
    rw [hgrows.jobs]
    exact h.settled
  | cons j js ih =>
    have hj : j ∈ r.spec.jobs := hjs.subset List.mem_cons_self
    have hreusable := h.draft.reusable
    rw [hkey] at hreusable
    have hsettles := (ensures_settleJob hkey halike hj hdistinct hleft hreusable
      (h.awaits j List.mem_cons_self)).keeps (keeps_settleJob hkey hleft h.draft j)
    refine hsettles.seq fun v₁ d₁ hle₁ hd₁ => ?_
    obtain ⟨hbrings, i, hle, hsound⟩ := hd₁
    have hprogress := h.step hkey halike hjs hbrings (hsound.mono hle)
    have hinv := habides.turn j js v d v₁ d₁ hjs hle₁ hbrings (hsound.mono hle) hinv
    refine (ih (fun c hc => (hleft c hc).mono hle₁) ((List.sublist_cons_self j js).trans hjs)
      hprogress hinv).weaken fun v' d' _ hdone => ?_
    exact ⟨hdone.1.trans hbrings.resource, hdone.2⟩

theorem progress_start {reusable : List (String × String)} (r : Resource) {s : Status} {v : View}
    (hdistinct : ((retained r.spec s).map Condition.name).Nodup)
    (hleft : ∀ c ∈ retained r.spec s, c.Sound v.issued r.key (some r.spec.target))
    (hreusable : ReusableSound v.issued r.key reusable) :
    Progress r s r.spec.jobs v ⟨retained r.spec s, reusable,
      s.globalChange r.spec || (retained r.spec s).length != s.conditions.length⟩ where
  draft := ⟨hdistinct, hleft, hreusable⟩
  declared := by
    intro c hc
    obtain ⟨j, hj, hname, _⟩ := declared_of_mem_retained hc
    exact ⟨j, hj, hname⟩
  awaits := fun _ _ => .inl rfl
  settled := fun _ hj hnot => absurd hj hnot
  unchanged := by
    intro hchanged
    obtain ⟨hglobal, hlength⟩ := Bool.or_eq_false_iff.1 hchanged
    refine ⟨hglobal, ?_⟩
    simp only [retained, hglobal, Bool.false_eq_true, if_false, bne_eq_false_iff_eq] at hlength ⊢
    exact List.filter_sublist.eq_of_length hlength

/-- When all declared jobs are settled, it is enough to drop what the conditions do not name. -/
theorem Progress.result (h : Progress r s [] v d) (hle : v.issued.Le v'.issued)
    (hjobs : ∀ id, v'.jobs id = if id ∈ idsNamed d.conditions then v.jobs id else none) :
    Result r s d.conditions v' where
  distinct := h.draft.distinct
  sound := fun c hc => (h.draft.conditions c hc).mono hle
  declared := h.declared
  settled := by
    intro j hj
    obtain ⟨c, hfind, hsettled⟩ := h.settled j hj List.not_mem_nil
    obtain ⟨hmem, hname⟩ := find?_eq_some_name hfind
    refine ⟨c, hmem, hname, hsettled.declared, hsettled.unbuilt, hsettled.ran,
      hsettled.kept, ?_, ?_⟩
    · intro hrun job hbuild
      rw [hjobs, hsettled.run hrun job hbuild]
      exact ite_self none
    · intro hrun job hbuild
      have hne := named_of_build hbuild (h.draft.conditions c hmem) hname hsettled.declared
      rw [hjobs, if_pos (mem_idsNamed.2 ⟨c, hmem, rfl, hne⟩)]
      exact hsettled.queued hrun job hbuild
  only := by
    intro id job hjob
    rw [hjobs] at hjob
    split at hjob
    · rename_i hmem
      exact mem_idsNamed.1 hmem
    · exact absurd hjob (Option.some_ne_none job).symm

theorem Result.mono {cs : List Condition} (h : Result r s cs v) (hle : v.issued.Le v'.issued)
    (hjobs : v'.jobs = v.jobs) : Result r s cs v' where
  distinct := h.distinct
  sound := fun c hc => (h.sound c hc).mono hle
  declared := h.declared
  settled := hjobs ▸ h.settled
  only := hjobs ▸ h.only

/-- Where nothing of the whole has changed, there is a status. -/
theorem status_of_globalChange (h : (r.status.getD .initial).globalChange r.spec = false) :
    r.status = some (r.status.getD .initial) := by
  cases hs : r.status with
  | none =>
    rw [hs] at h
    exact absurd h (by simp [Status.globalChange, Status.initial])
  | some s => rfl

theorem conditions_adopt (spec : Spec) (s : Status) (cs : List Condition) :
    (adopt spec s cs).conditions = cs := by
  unfold adopt
  split <;> rfl

/-- A status that was written without a fault is there, since the resource is. -/
theorem ensures_writeStatus {r₀ : Resource} {s' : Status} (hresource : v.resource = some r₀) :
    (writeStatus key r s').Ensures key (fun v' result => v'.jobs = v.jobs ∧ (result = .ok () →
      ∃ r', v'.resource = some r' ∧ r'.spec = r₀.spec ∧ r'.status = some s')) v := by
  refine Procedure.ensures_ask fun v₁ reply _ _ hwritten => ?_
  obtain ⟨hjobs, heffect⟩ := hwritten
  obtain ⟨hok, hmissing⟩ := heffect rfl
  cases reply with
  | ok u =>
    refine Procedure.ensures_pure fun v' hgrows => ⟨hgrows.jobs.trans hjobs, fun _ => ?_⟩
    obtain ⟨r₁, r', hr₁, hr', hspec, hstatus⟩ := hok rfl
    obtain rfl := Option.some.inj (hresource.symm.trans hr₁)
    exact ⟨r', hgrows.resource.trans hr', hspec, hstatus⟩
  | error e =>
    refine Procedure.ensures_pure fun v' hgrows => ⟨hgrows.jobs.trans hjobs, fun hresult => ?_⟩
    split at hresult
    · rename_i he
      rw [hmissing e rfl he] at hresource
      exact absurd hresource (Option.some_ne_none r₀).symm
    · exact absurd hresult (by simp)

/-- What a reconcile that succeeds leaves of its resource. -/
def Leaves (r : Resource) (v' : View) (result : Except Fault Unit) : Prop :=
  result = .ok () → ∃ r' s', v'.resource = some r' ∧ r'.spec = r.spec ∧ r'.status = some s' ∧
    Result r (r.status.getD .initial) s'.conditions v'

/-- Whether target and excluded days are adopted after a reconcile that succeeds. -/
def Adopts (r : Resource) (v' : View) (result : Except Fault Unit) : Prop :=
  result = .ok () → ∀ r' s', v'.resource = some r' → r'.status = some s' →
    s'.globalChange r.spec = false

theorem sameTexts_self (as : List String) : sameTexts as as = true := by simp [sameTexts]

theorem globalChange_adopt (spec : Spec) (s : Status) (cs : List Condition) :
    (adopt spec s cs).globalChange spec = false := by
  unfold adopt
  split
  · simp only [Status.globalChange, bne_self_eq_false, sameTexts_self, Bool.not_true, Bool.or_self]
  · rename_i hglobal
    exact Bool.not_eq_true _ ▸ hglobal

/-- What there is when a reconcile that works on its copy of a resource is done: the conditions were
divided, all declared jobs had their turns, and the status was written if it had changed. -/
structure Ends (r : Resource) (v divided settled : View) (d : Draft) (v' : View)
    (result : Except Fault Unit) : Prop where
  first : v.issued.Le divided.issued
  last : settled.issued.Le v'.issued
  divides : Divides r.spec (r.status.getD .initial) v divided
  done : Result r (r.status.getD .initial) d.conditions v'
  stored : result = .ok () → ∃ r' s', v'.resource = some r' ∧ r'.spec = r.spec ∧
    r'.status = some s' ∧ s'.conditions = d.conditions ∧ s'.globalChange r.spec = false

theorem ensures_settleResource_ends {inv : View → List JobSpec → View → Draft → Prop}
    (hr : r.Sound v.issued key) (hresource : v.resource = some r) (halike : r.spec.Alike)
    (habides : ∀ divided, Abides key r (r.status.getD .initial) (inv divided))
    (hstart : ∀ divided changed, inv divided r.spec.jobs divided
      ⟨retained r.spec (r.status.getD .initial), putBy r.spec (r.status.getD .initial), changed⟩) :
    (settleResource key r).Ensures key (fun v' result =>
      ∃ divided settled d, Ends r v divided settled d v' result ∧ inv divided [] settled d) v := by
  refine (ensures_complain r).seq fun v₁ _ hle₁ hcomplained => ?_
  obtain ⟨hresource₁, hjobs₁⟩ := hcomplained
  have hstatus := (hr.mono hle₁).status_getD
  refine ((ensures_divide r.spec _).keeps (keeps_divide hr.filed hstatus)).seq
    fun v₂ p hle₂ hp => ?_
  obtain ⟨⟨hresource₂, rfl, hdivides⟩, i, hle, hdistinct, hleft, hreusable⟩ := hp
  have hleft₂ := fun c hc => (hleft c hc).mono hle
  refine (ensures_settleJobs hr.filed halike hstatus.distinct hleft₂ (.refl _)
    (progress_start r hdistinct hleft₂ (hreusable.mono hle)) (habides v₂)
    (hstart v₂ _)).seq fun v₃ d hle₃ hd => ?_
  obtain ⟨hresource₃, hprogress, hinv⟩ := hd
  refine Procedure.ensures_ask fun v₄ _ hle₄ _ hretained => ?_
  obtain ⟨hresource₄, hjobs₄⟩ := hretained
  have hresult := hprogress.result hle₄ hjobs₄
  have hresource₄ : v₄.resource = some r := by
    rw [hresource₄, hresource₃, hresource₂, hresource₁, hresource]
  split
  · refine (ensures_writeStatus hresource₄).weaken fun v' result hle₅ hwritten =>
      ⟨v₂, v₃, d, ⟨hle₁.trans hle₂, hle₄.trans hle₅, hdivides.of_jobs hjobs₁, ?_,
        fun hok => ?_⟩, hinv⟩
    · exact hresult.mono hle₅ hwritten.1
    · obtain ⟨r', hr', hspec, hstatus'⟩ := hwritten.2 hok
      exact ⟨r', _, hr', hspec, hstatus', conditions_adopt _ _ _, globalChange_adopt _ _ _⟩
  · rename_i hchanged
    obtain ⟨hglobal, hconditions⟩ := hprogress.unchanged (Bool.not_eq_true _ ▸ hchanged)
    refine Procedure.ensures_pure fun v' hgrows => ⟨v₂, v₃, d, ⟨hle₁.trans hle₂,
      hle₄.trans hgrows.issued, hdivides.of_jobs hjobs₁,
      hresult.mono hgrows.issued hgrows.jobs, fun _ => ?_⟩, hinv⟩
    exact ⟨r, _, hgrows.resource.trans hresource₄, rfl, status_of_globalChange hglobal,
      hconditions.symm, hglobal⟩

theorem ensures_settleResource (hr : r.Sound v.issued key) (hresource : v.resource = some r)
    (halike : r.spec.Alike) :
    (settleResource key r).Ensures key
      (fun v' result => Leaves r v' result ∧ Adopts r v' result) v := by
  refine (ensures_settleResource_ends hr hresource halike (fun _ => abides_true key r _)
    fun _ _ => trivial).weaken fun v' result _ hends => ?_
  obtain ⟨_, _, d, hends, _⟩ := hends
  refine ⟨fun hok => ?_, fun hok r₁ s₁ hr₁ hs₁ => ?_⟩
  · obtain ⟨r', s', hr', hspec, hs', hconditions, _⟩ := hends.stored hok
    exact ⟨r', s', hr', hspec, hs', hconditions ▸ hends.done⟩
  · obtain ⟨r', s', hr', _, hs', _, hadopted⟩ := hends.stored hok
    obtain rfl := Option.some.inj (hr'.symm.trans hr₁)
    obtain rfl := Option.some.inj (hs'.symm.trans hs₁)
    exact hadopted

end Reconcile

theorem ensures_reconcile_alike {key : OwnerKey} {v : View} {r : Resource}
    (hresource : v.resource = some r) (halike : r.spec.Alike) :
    (reconcile key).Ensures key
      (fun v' result => Reconcile.Leaves r v' result ∧ Reconcile.Adopts r v' result) v := by
  refine Procedure.ensures_ask fun v₁ reply _ hfits hfetched => ?_
  obtain ⟨_, hresource₁, hreply⟩ := hfetched
  match reply with
  | .error e =>
    exact Procedure.ensures_pure fun _ _ =>
      ⟨fun hok => absurd hok (by simp), fun hok => absurd hok (by simp)⟩
  | .ok none => exact absurd ((hreply rfl none rfl).trans hresource) (Option.some_ne_none r).symm
  | .ok (some r') =>
    obtain rfl : r' = r := Option.some.inj ((hreply rfl _ rfl).trans hresource)
    exact Reconcile.ensures_settleResource (hfits r' rfl) (hresource₁.trans hresource) halike

theorem ensures_reconcile_adopts {key : OwnerKey} {v : View} {r : Resource}
    (hresource : v.resource = some r) (hnames : (r.spec.jobs.map JobSpec.name).Nodup) :
    (reconcile key).Ensures key
      (fun v' result => Reconcile.Leaves r v' result ∧ Reconcile.Adopts r v' result) v :=
  ensures_reconcile_alike hresource (Spec.alike_of_nodup hnames)

theorem ensures_reconcile {key : OwnerKey} {v : View} {r : Resource}
    (hresource : v.resource = some r) (hnames : (r.spec.jobs.map JobSpec.name).Nodup) :
    (reconcile key).Ensures key (Reconcile.Leaves r) v :=
  (ensures_reconcile_adopts hresource hnames).weaken fun _ _ _ h => h.1

/-- Whether a status has one condition for each declared job of a resource and no other. A
condition says what is declared, and that the job cannot be built only if it cannot. -/
structure Status.Describes (s : Status) (r : Resource) : Prop where
  distinct : (s.conditions.map Condition.name).Nodup
  complete : ∀ j ∈ r.spec.jobs, ∃ c ∈ s.conditions, c.name = j.name
  declared : ∀ c ∈ s.conditions, ∃ j ∈ r.spec.jobs, c.name = j.name ∧
    c.schedule = j.schedule ∧ c.runOnce = j.runOnce ∧ c.targetSize = j.targetSize ∧
    ∀ e, c.message = Reconcile.buildFailure j.name e → ∃ e', Job.build r j "" = .error e'

/-- Whether queue and agenda hold one job for each declared job of a resource that can be built and
had not run by its former status, under the id in its condition, and no other job of the
resource. -/
structure Manager.Carries (m : Manager) (r : Resource) (former s : Status) : Prop where
  lockstep : m.Lockstep
  queued : ∀ j ∈ r.spec.jobs, ∀ job, Job.build r j "" = .ok job →
    ¬Reconcile.HasRun r.spec former j → ∃ c ∈ s.conditions, c.name = j.name ∧
      ∃ queued fresh, m.queue.get? c.jobId = some queued ∧ queued.owner = r.key ∧
        Job.build r j c.jobId = .ok fresh ∧ queued.differsFrom fresh = false
  only : ∀ id queued, m.queue.get? id = some queued → queued.owner = r.key →
    ∃ j ∈ r.spec.jobs, ∃ c ∈ s.conditions, c.name = j.name ∧ c.jobId = id ∧
      (∃ fresh, Job.build r j id = .ok fresh) ∧ ¬Reconcile.HasRun r.spec former j

namespace Reconcile

variable {r : Resource} {former s : Status} {v : View}

theorem Result.describes (h : Result r former s.conditions v) : s.Describes r where
  distinct := h.distinct
  complete := by
    intro j hj
    obtain ⟨c, hc, hname, _⟩ := h.settled j hj
    exact ⟨c, hc, hname⟩
  declared := by
    intro c hc
    obtain ⟨j, hj, hname⟩ := h.declared c hc
    obtain ⟨c', hc', hname', hsettled⟩ := h.settled j hj
    obtain rfl := eq_of_nodup h.distinct hc' hc (hname'.trans hname)
    have hdeclared := hsettled.declared
    simp only [Reconcile.unchanged, Bool.and_eq_true, beq_iff_eq] at hdeclared
    obtain ⟨⟨hschedule, honce⟩, hsize⟩ := hdeclared
    refine ⟨j, hj, hname', hschedule, honce, hsize, fun e hmessage => ?_⟩
    have hsound := h.sound c' hc
    have hid : c'.jobId = "" := by
      refine Decidable.byContradiction fun hne => ?_
      exact hsound.notFailure hne e (hname' ▸ hmessage)
    obtain ⟨target, e', htarget, hobstacle, _, _⟩ := hsound.failure hid
    obtain rfl := Option.some.inj htarget
    rw [hname', hschedule, hsize] at hobstacle
    exact ⟨e', Job.build_error_iff.2 hobstacle⟩

theorem Result.carries {w : World} {key : OwnerKey} (hkey : r.key = key)
    (h : Result r former s.conditions (w.view key)) (hlockstep : w.manager.Lockstep) :
    w.manager.Carries r former s where
  lockstep := hlockstep
  queued := by
    intro j hj job hbuild hrun
    obtain ⟨c, hc, hname, hsettled⟩ := h.settled j hj
    obtain ⟨queued, hjob, hdiffers⟩ := hsettled.queued hrun job hbuild
    obtain ⟨hqueued, howner⟩ := World.jobs_view_eq_some.1 hjob
    exact ⟨c, hc, hname, queued, _, hqueued, howner.trans hkey.symm, build_id hbuild c.jobId,
      hdiffers⟩
  only := by
    intro id queued hqueued howner
    have hjob := World.jobs_view_eq_some.2 ⟨hqueued, howner.trans hkey⟩
    obtain ⟨c, hc, rfl, hne⟩ := h.only id queued hjob
    obtain ⟨j, hj, hname⟩ := h.declared c hc
    obtain ⟨c', hc', hname', hsettled⟩ := h.settled j hj
    obtain rfl := eq_of_nodup h.distinct hc' hc (hname'.trans hname)
    cases hbuild : Job.build r j "" with
    | error e => exact absurd (hsettled.unbuilt e hbuild) hne
    | ok job =>
      refine ⟨j, hj, c', hc, hname', rfl, ⟨_, build_id hbuild c'.jobId⟩, fun hrun => ?_⟩
      rw [hsettled.run hrun job hbuild] at hjob
      exact absurd hjob (Option.some_ne_none queued).symm

end Reconcile

namespace World

/-- A reconcile that succeeds while nothing else touches the resource or its jobs leaves a status
that describes the resource, and a queue and an agenda with the jobs that it asks for; in none of
its steps it touches the jobs of other resources. -/
theorem Exec.settled {w w' : World} {key : OwnerKey} {own : List (World × World)} {r : Resource}
    (hexec : Exec (Aside key) w (reconcile key) own (.ok ()) w') (hgood : w.Good)
    (hresource : w.resources key = some r) (hnames : (r.spec.jobs.map JobSpec.name).Nodup) :
    (∃ r' s, w'.resources key = some r' ∧ r'.spec = r.spec ∧ r'.status = some s ∧
      s.Describes r ∧ w'.manager.Carries r (r.status.getD .initial) s) ∧
    ∀ step ∈ own, step.1.manager.Spares key step.2.manager := by
  obtain ⟨hleaves, hgood', hspares⟩ :=
    hexec.ensures hgood (keeps_reconcile key w.issued) (ensures_reconcile hresource hnames)
  obtain ⟨r', s, hr', hspec, hstatus, hresult⟩ := hleaves rfl
  refine ⟨⟨r', s, hr', hspec, hstatus, hresult.describes, ?_⟩, hspares⟩
  exact hresult.carries (hgood.resources key r hresource).filed hgood'.lockstep

/-- A larger size every morning. -/
def morning : JobSpec := ⟨"up", "0 0 8 * * *", false, 5⟩

/-- A resource that asks for it, and for something that cannot be read. -/
def web : Resource where
  metadata := { name := some "web", ns := some "default", resourceVersion := some "0" }
  spec :=
    { excludeDates := []
      target := ⟨"apps/v1", "Deployment", "web"⟩
      jobs := [morning, ⟨"down", "at night", false, 1⟩] }
  status := none

/-- The world in which it was just written. -/
def withWeb : World := (new Zone.utc 0).write web.key web "0"

end World

end CronScale
