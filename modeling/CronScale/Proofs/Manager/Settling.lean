import CronScale.Proofs.Manager.Calls
import CronScale.Proofs.Manager.View
/-!
# What the parts of a reconcile come to

A reconcile goes through the declared jobs one after another. Each of them is settled when its turn
comes (`Settled`), and what the later ones do leaves it settled, since jobs of different names have
different conditions and different ids. What was done to the queue before, by this reconcile or by
earlier ones that failed half-way, does not matter: in the end only those jobs stay queued that a
condition names.
-/

namespace CronScale

open CronScale.Calendar

/-- Whether a call writes no status and leaves what is queued under some ids. -/
def DeskCall.Leaves (ids : String → Prop) : DeskCall → Prop
  | .store (.patchStatus _ _ _) => False
  | .manager (.createOrUpdate job) => ¬ids job.id
  | .manager (.delete id) => ¬ids id
  | .manager (.deleteOwnedBy _) => ∀ id, ¬ids id
  | .manager (.retainOwned _ _) => ∀ id, ¬ids id
  | _ => True

theorem DeskCall.Effect.leaves {key : OwnerKey} {v v' : View} {c : DeskCall} {reply : c.Reply}
    {ids : String → Prop} (h : c.Effect key v v' reply) (hc : c.Leaves ids) :
    v'.resource = v.resource ∧ ∀ id, ids id → v'.jobs id = v.jobs id := by
  have hsame : v'.jobs = v.jobs ∧ v'.resource = v.resource →
      v'.resource = v.resource ∧ ∀ id, ids id → v'.jobs id = v.jobs id :=
    fun ⟨hjobs, hresource⟩ => ⟨hresource, fun id _ => congrFun hjobs id⟩
  cases c with
  | store c =>
    cases c with
    | fetch k => exact hsame ⟨h.1, h.2.1⟩
    | patchStatus k s version => exact hc.elim
    | publish r e => exact hsame h
  | manager c =>
    cases c with
    | createOrUpdate job => exact ⟨h.1, fun id hid => h.2.1 id fun heq => hc (heq ▸ hid)⟩
    | delete id =>
      refine ⟨h.1, fun id' hid' => (h.2 id').trans (if_neg ?_)⟩
      rintro rfl
      exact hc hid'
    | deleteOwnedBy owner => exact ⟨h.1, fun id hid => absurd hid (hc id)⟩
    | retainOwned owner keep => exact ⟨h.1, fun id hid => absurd hid (hc id)⟩
    | queuedId owner name => exact hsame ⟨h.1, h.2.1⟩
    | _ => exact hsame h
  | freshId owner name => exact hsame ⟨h.1, h.2.1⟩
  | _ => exact hsame h

/-- A procedure that leaves what is queued under some ids leaves the resource, too. -/
theorem Procedure.Asks.ensures {α : Type} {p : Procedure Desk α} {post : α → Prop}
    {key : OwnerKey} {v : View} {ids : String → Prop} (h : p.Asks (DeskCall.Leaves ids) post) :
    p.Ensures key (fun v' a => v'.resource = v.resource ∧
      (∀ id, ids id → v'.jobs id = v.jobs id) ∧ post a) v := by
  induction p generalizing v with
  | done a =>
    exact fun v' hgrows => ⟨hgrows.resource, fun id _ => congrFun hgrows.jobs id, h⟩
  | ask c next ih =>
    intro v₁ reply _ _ heffect
    obtain ⟨hresource, hjobs⟩ := heffect.leaves h.1
    refine (ih reply (h.2 reply)).weaken fun v' a _ hpost => ?_
    obtain ⟨hresource', hjobs', ha⟩ := hpost
    exact ⟨hresource'.trans hresource, fun id hid => (hjobs' id hid).trans (hjobs id hid), ha⟩

/-- Whether jobs that are declared under one name are declared alike. -/
def Spec.Alike (spec : Spec) : Prop :=
  ∀ j ∈ spec.jobs, ∀ j' ∈ spec.jobs, j.name = j'.name → j = j'

theorem Spec.alike_of_nodup {spec : Spec} (h : (spec.jobs.map JobSpec.name).Nodup) : spec.Alike :=
  fun _ hj _ hj' hname => eq_of_nodup h hj hj' hname

/-- Where jobs of one name are declared alike, each of them is found by its name. -/
theorem Spec.Alike.find? {spec : Spec} (h : spec.Alike) {j : JobSpec} (hj : j ∈ spec.jobs) :
    spec.jobs.find? (·.name == j.name) = some j := by
  cases hfind : spec.jobs.find? (·.name == j.name) with
  | none => exact absurd (beq_self_eq_true j.name) (List.find?_eq_none.1 hfind j hj)
  | some j' =>
    have hname : j'.name = j.name := by simpa using List.find?_some hfind
    rw [h j' (List.mem_of_find?_eq_some hfind) j hj hname]

namespace Reconcile

/-- Whether a declared job has run: it runs once, and its retained condition carries an outcome. -/
def HasRun (spec : Spec) (s : Status) (j : JobSpec) : Prop :=
  j.isRunOnce = true ∧ ∃ c ∈ retained spec s, c.name = j.name ∧ c.state.isTerminal = true

/-- Whether a condition and the queued jobs are as a declared job asks for, given the status that
was there before. -/
structure Settled (r : Resource) (s : Status) (j : JobSpec) (jobs : String → Option Job)
    (c : Condition) : Prop where
  declared : unchanged c j = true
  unbuilt : ∀ e, Job.build r j "" = .error e → c.jobId = ""
  ran : ∀ job, Job.build r j "" = .ok job →
    (HasRun r.spec s j ↔ j.isRunOnce = true ∧ c.state.isTerminal = true)
  kept : HasRun r.spec s j → ∀ job, Job.build r j "" = .ok job → c ∈ retained r.spec s
  run : HasRun r.spec s j → ∀ job, Job.build r j "" = .ok job → jobs c.jobId = none
  queued : ¬HasRun r.spec s j → ∀ job, Job.build r j "" = .ok job →
    ∃ queued, jobs c.jobId = some queued ∧ queued.differsFrom { job with id := c.jobId } = false

/-- Whether the condition of a declared job is the retained one, or is as the job asks for already,
since the job is declared more than once and has had a turn. -/
def Awaits (r : Resource) (s : Status) (j : JobSpec) (jobs : String → Option Job) (d : Draft) :
    Prop :=
  d.conditions.find? (·.name == j.name) = (retained r.spec s).find? (·.name == j.name) ∨
    ∃ c, d.conditions.find? (·.name == j.name) = some c ∧ Settled r s j jobs c

/-- Whether a draft has changed in nothing but the condition with a name and the ids that are put by
under it. -/
structure Alters (name : String) (d d' : Draft) : Prop where
  others : ∀ name', name' ≠ name →
    d'.conditions.find? (·.name == name') = d.conditions.find? (·.name == name')
  named : ∀ c ∈ d'.conditions, c ∈ d.conditions ∨ c.name = name
  unchanged : d'.changed = false → d.changed = false ∧ d'.conditions = d.conditions
  reusable : ∀ name', name' ≠ name → reusableId d'.reusable name' = reusableId d.reusable name'

theorem TakesId.alters {name : String} {d d' : Draft} (h : TakesId name d d') :
    Alters name d d' where
  others := fun _ _ => by rw [h.conditions]
  named := fun _ hc => .inl (h.conditions ▸ hc)
  unchanged := fun hchanged => ⟨h.changed ▸ hchanged, h.conditions⟩
  reusable := h.reusable

theorem alters_refl (name : String) (d : Draft) : Alters name d d := (takesId_refl name d).alters

theorem alters_put (d : Draft) {c : Condition} {name : String} (hname : c.name = name) :
    Alters name d (d.put c) where
  others := by
    intro name' hne
    simp only [Draft.put, Condition.find?_mergeByName, hname, hne.symm, if_false]
  named := by
    intro c' hc'
    rcases Condition.mem_mergeByName hc' with rfl | hc'
    · exact .inr hname
    · exact .inl hc'
  unchanged := fun h => absurd h (by simp [Draft.put])
  reusable := fun _ _ => rfl

theorem Alters.after {name : String} {d d₁ d' : Draft} (h : Alters name d₁ d')
    (htaken : TakesId name d d₁) : Alters name d d' := by
  refine ⟨fun name' hne => ?_, fun c hc => ?_, fun hd' => ?_, fun name' hne => ?_⟩
  · rw [h.others name' hne, htaken.conditions]
  · rw [← htaken.conditions]
    exact h.named c hc
  · rw [← htaken.conditions, ← htaken.changed]
    exact h.unchanged hd'
  · rw [h.reusable name' hne, htaken.reusable name' hne]

theorem find?_put (d : Draft) {c : Condition} {name : String} (hname : c.name = name) :
    (d.put c).conditions.find? (·.name == name) = some c := by
  simp only [Draft.put, Condition.find?_mergeByName, hname, if_true]

theorem unchanged_conditionOf (j : JobSpec) (id : String) (state : JobState) (now : Instant)
    (message : String) : unchanged (conditionOf j id state now message) j = true := by
  simp [unchanged, conditionOf]

/-! ### Retained conditions -/

section

variable {spec : Spec} {s : Status} {j : JobSpec} {c : Condition}

theorem nodup_retained (h : (s.conditions.map Condition.name).Nodup) (spec : Spec) :
    ((retained spec s).map Condition.name).Nodup :=
  h.sublist ((retained_sublist spec s).map _)

/-- A retained condition is that of a declared job, and says what is declared. -/
theorem declared_of_mem_retained (h : c ∈ retained spec s) :
    ∃ j ∈ spec.jobs, j.name = c.name ∧ unchanged c j = true := by
  unfold retained at h
  split at h
  · exact absurd h List.not_mem_nil
  · obtain ⟨j, hfind, hunchanged⟩ := (Option.any_eq_true _ _).1 (List.mem_filter.1 h).2
    exact ⟨j, List.mem_of_find?_eq_some hfind, by simpa using List.find?_some hfind, hunchanged⟩

theorem mem_retained (hnames : (spec.jobs.map JobSpec.name).Nodup) (hj : j ∈ spec.jobs)
    (hadopted : s.globalChange spec = false) (hc : c ∈ s.conditions) (hname : c.name = j.name)
    (hunchanged : unchanged c j = true) : c ∈ retained spec s := by
  have hfind := find?_of_nodup hnames hj
  rw [← hname] at hfind
  simp only [retained, hadopted, Bool.false_eq_true, if_false, List.mem_filter, retains, hfind,
    Option.any_some]
  exact ⟨hc, hunchanged⟩

theorem unchanged_of_alike (halike : spec.Alike) (hj : j ∈ spec.jobs) (h : c ∈ retained spec s)
    (hname : c.name = j.name) : unchanged c j = true := by
  obtain ⟨j', hj', hname', hunchanged⟩ := declared_of_mem_retained h
  rwa [halike j' hj' j hj (hname'.trans hname)] at hunchanged

theorem unchanged_of_mem_retained (hnames : (spec.jobs.map JobSpec.name).Nodup)
    (hj : j ∈ spec.jobs) (h : c ∈ retained spec s) (hname : c.name = j.name) :
    unchanged c j = true :=
  unchanged_of_alike (Spec.alike_of_nodup hnames) hj h hname

theorem hasRun_iff (h : (s.conditions.map Condition.name).Nodup)
    (hfind : (retained spec s).find? (·.name == j.name) = some c) :
    HasRun spec s j ↔ j.isRunOnce = true ∧ c.state.isTerminal = true := by
  obtain ⟨hmem, hname⟩ := find?_eq_some_name hfind
  constructor
  · rintro ⟨honce, c', hc', hname', hterminal⟩
    rw [eq_of_nodup (nodup_retained h spec) hc' hmem (hname'.trans hname.symm)] at hterminal
    exact ⟨honce, hterminal⟩
  · rintro ⟨honce, hterminal⟩
    exact ⟨honce, c, hmem, hname, hterminal⟩

theorem not_hasRun (hfind : (retained spec s).find? (·.name == j.name) = none) :
    ¬HasRun spec s j := by
  rintro ⟨_, c, hc, hname, _⟩
  have := List.find?_eq_none.1 hfind c hc
  exact this (beq_iff_eq.2 hname)

end

/-! ### Building jobs -/

theorem build_id {r : Resource} {j : JobSpec} {id : String} {job : Job}
    (h : Job.build r j id = .ok job) (id' : String) :
    Job.build r j id' = .ok { job with id := id' } := by
  unfold Job.build at h ⊢
  split at h
  · cases h
  split at h
  · cases h
  split at h
  · cases h
  · rename_i hsize
    cases h
    simp only [hsize, if_false]

/-- A job that is built is as declared. -/
theorem declared_of_build {r : Resource} {j : JobSpec} {id : String} {job : Job}
    (h : Job.build r j id = .ok job) :
    job.schedule = j.schedule ∧ job.desiredSize = j.targetSize ∧ job.runOnce = j.isRunOnce := by
  unfold Job.build at h
  split at h
  · cases h
  split at h
  · cases h
  split at h
  · cases h
  · cases h
    exact ⟨rfl, rfl, rfl⟩

/-- What is built for a declaration depends on nothing else of a resource than its key, its target
and its excluded days. -/
theorem build_of_common {r r' : Resource} (hkey : r'.key = r.key)
    (htarget : r'.spec.target = r.spec.target)
    (hdates : r'.spec.excludeDates = r.spec.excludeDates) (j : JobSpec) (id : String) :
    Job.build r' j id = Job.build r j id := by
  unfold Job.build Job.targetOf
  rw [hkey, htarget, hdates]

/-- What is built depends only on what is declared and for whom. -/
theorem build_congr {r r' : Resource} (hkey : r'.key = r.key) (hspec : r'.spec = r.spec)
    (j : JobSpec) (id : String) : Job.build r' j id = Job.build r j id :=
  build_of_common hkey (by rw [hspec]) (by rw [hspec]) j id

theorem parse_of_build {r : Resource} {j : JobSpec} {id : String} {job : Job}
    (h : Job.build r j id = .ok job) : ∃ s, Schedule.parse job.schedule = .ok s := by
  obtain ⟨_, _, _, hschedule⟩ := job_of_build h
  unfold Job.build at h
  split at h
  · cases h
  split at h
  · cases h
  · rename_i s hparse
    exact ⟨s, hschedule ▸ hparse⟩

/-- If a job can be built, its sound condition has an id. -/
theorem named_of_build {i : Issued} {r : Resource} {j : JobSpec} {c : Condition} {job : Job}
    (hbuild : Job.build r j "" = .ok job) (hc : c.Sound i r.key (some r.spec.target))
    (hname : c.name = j.name) (hunchanged : unchanged c j = true) : c.jobId ≠ "" := by
  intro hid
  obtain ⟨target, e, htarget, hobstacle, _, _⟩ := hc.failure hid
  obtain rfl := Option.some.inj htarget
  simp only [unchanged, Bool.and_eq_true, beq_iff_eq] at hunchanged
  rw [hname, hunchanged.1.1, hunchanged.2] at hobstacle
  rw [Job.build_error_iff.2 hobstacle] at hbuild
  cases hbuild

/-- If a job can be built, no condition without an id is retained for it: the condition would say
that it cannot. -/
theorem eq_none_of_filter {i : Issued} {r : Resource} {j : JobSpec} {job : Job}
    {kept : Option Condition} (hbuild : Job.build r j "" = .ok job)
    (hkept : ∀ c, kept = some c → c.Sound i r.key (some r.spec.target) ∧ c.name = j.name ∧
      unchanged c j = true)
    (hfilter : kept.filter (·.jobId != "") = none) : kept = none := by
  cases kept with
  | none => rfl
  | some c =>
    obtain ⟨hsound, hname, hdeclared⟩ := hkept c rfl
    have hne := named_of_build hbuild hsound hname hdeclared
    rw [Option.filter_some] at hfilter
    exact absurd hfilter (by simp [hne])

/-! ### The parts of a reconcile -/

section

variable {key : OwnerKey} {v : View}

theorem ensures_complain (r : Resource) :
    (complain key r).Ensures key (fun v' _ => v'.resource = v.resource ∧ v'.jobs = v.jobs) v := by
  have hasks : (complain key r).Asks (DeskCall.Leaves fun _ => True) fun _ => True :=
    asks_complain trivial fun _ => trivial
  refine hasks.ensures.weaken fun v' _ _ hpost => ⟨hpost.1, funext fun id => ?_⟩
  exact hpost.2.1 id trivial

/-- What is left of the queued jobs when the conditions of a status have been divided. -/
structure Divides (spec : Spec) (s : Status) (v v' : View) : Prop where
  anew : s.globalChange spec = true → ∀ id, v'.jobs id = none
  spared : s.globalChange spec = false → ∀ id, (∀ c ∈ s.conditions, c.jobId ≠ id) →
    v'.jobs id = v.jobs id

theorem Divides.of_jobs {spec : Spec} {s : Status} {v₁ v' : View} (hjobs : v₁.jobs = v.jobs)
    (h : Divides spec s v₁ v') : Divides spec s v v' where
  anew := h.anew
  spared := hjobs ▸ h.spared

theorem ensures_divide (spec : Spec) (s : Status) :
    (divide key spec s).Ensures key (fun v' p => v'.resource = v.resource ∧
      p = (retained spec s, putBy spec s) ∧ Divides spec s v v') v := by
  unfold divide retained putBy
  split
  · rename_i hglobal
    refine Procedure.ensures_ask fun v₁ _ _ _ hdeleted => ?_
    obtain ⟨hresource, hjobs⟩ := hdeleted
    refine Procedure.ensures_pure fun v' hgrows => ⟨hgrows.resource.trans hresource, rfl, ?_⟩
    refine ⟨fun _ id => (congrFun hgrows.jobs id).trans (hjobs id), fun hnone => ?_⟩
    exact absurd (hglobal.symm.trans hnone) (by decide)
  · rename_i hglobal
    have hdelete : ∀ c ∈ s.conditions,
        DeskCall.Leaves (fun id => ∀ c ∈ s.conditions, c.jobId ≠ id) (.manager (.delete c.jobId)) :=
      fun c hc hleft => hleft c hc rfl
    have hasks := asks_sift hdelete spec
    refine hasks.ensures.weaken fun v' p _ hpost => ⟨hpost.1, hpost.2.2, ?_⟩
    exact ⟨fun hanew => absurd hanew hglobal, fun _ => hpost.2.1⟩

/-- Where the id for a job without a retained condition comes from: it was put by, or a job of the
name is queued under it, or else it was never given out before. -/
inductive Chooses (key : OwnerKey) (v : View) (d : Draft) (name id : String) : Prop
  | reused (hput : reusableId d.reusable name = some id)
  | queued (hput : reusableId d.reusable name = none) (hqueued : v.jobs id ≠ none)
  | fresh (hput : reusableId d.reusable name = none)
      (hnone : ∀ id', v.issued id' = some (key, name) → v.jobs id' = none)
      (hfresh : v.issued id = none)

theorem Chooses.of_grows {v₁ : View} {d : Draft} {name id : String} (hgrows : v.Grows v₁)
    (h : Chooses key v₁ d name id) : Chooses key v d name id := by
  cases h with
  | reused hput => exact .reused hput
  | queued hput hqueued => exact .queued hput (hgrows.jobs ▸ hqueued)
  | fresh hput hnone hfresh =>
    refine .fresh hput (fun id' hid' => ?_) (hgrows.issued.eq_none hfresh)
    rw [← hgrows.jobs]
    exact hnone id' (hgrows.issued _ _ hid')

theorem ensures_chooseId (d : Draft) (name : String) :
    (chooseId key d name).Ensures key
      (fun v' p => v.Grows v' ∧ TakesId name d p.2 ∧ Chooses key v d name p.1) v := by
  unfold chooseId
  split
  · rename_i id hput
    exact Procedure.ensures_pure fun v' hgrows => ⟨hgrows, takesId_filter name d, .reused hput⟩
  · rename_i hput
    refine Procedure.ensures_ask fun v₁ reply hle₁ _ hasked => ?_
    obtain ⟨hjobs₁, hresource₁, hfound⟩ := hasked
    have hgrows₁ : v.Grows v₁ := ⟨hle₁, hjobs₁, hresource₁⟩
    cases reply with
    | some id =>
      refine Procedure.ensures_pure fun v' hgrows =>
        ⟨hgrows₁.trans hgrows, takesId_refl name d, .queued hput ?_⟩
      exact (hfound rfl).1 id rfl
    | none =>
      refine Procedure.ensures_ask fun v₂ id hle₂ _ hissued => ?_
      obtain ⟨hjobs₂, hresource₂, hfresh⟩ := hissued
      have hgrows₂ : v.Grows v₂ := hgrows₁.trans ⟨hle₂, hjobs₂, hresource₂⟩
      have hnew : v.issued id = none := hle₁.eq_none hfresh
      refine Procedure.ensures_pure fun v' hgrows =>
        ⟨hgrows₂.trans hgrows, takesId_refl name d, .fresh hput ?_ hnew⟩
      exact (hfound rfl).2 rfl

/-- A job that can be scheduled is queued when it was submitted, and its condition names it. -/
theorem ensures_submit (j : JobSpec) (job : Job) (now : Instant) (wasRetained : Bool) (d : Draft)
    (hparse : ∃ s, Schedule.parse job.schedule = .ok s) :
    (submit j job now wasRetained d).Ensures key (fun v' d' =>
      v'.resource = v.resource ∧ (∀ id, id ≠ job.id → v'.jobs id = v.jobs id) ∧
        (∃ queued, v'.jobs job.id = some queued ∧ queued.differsFrom job = false) ∧
        (d' = d ∧ wasRetained = true ∨ d' = d.put (conditionOf j job.id .submitted now ""))) v := by
  refine Procedure.ensures_ask fun v₁ reply _ _ hqueued => ?_
  obtain ⟨hresource, hothers, hok, herror⟩ := hqueued
  cases reply with
  | error e =>
    obtain ⟨cause, hcause⟩ := herror e rfl
    obtain ⟨s, hs⟩ := hparse
    exact absurd (hs.symm.trans hcause) (by simp)
  | ok change =>
    show Procedure.Ensures _ _ (if change = .unchanged ∧ wasRetained then pure d else pure _) v₁
    have hleft : ∀ v', v₁.Grows v' → v'.resource = v.resource ∧
        (∀ id, id ≠ job.id → v'.jobs id = v.jobs id) ∧
        ∃ queued, v'.jobs job.id = some queued ∧ queued.differsFrom job = false := by
      intro v' hgrows
      rw [hgrows.resource, hgrows.jobs]
      exact ⟨hresource, hothers, hok change rfl⟩
    split
    · rename_i hsame
      refine Procedure.ensures_pure fun v' hgrows => ?_
      obtain ⟨h₁, h₂, h₃⟩ := hleft v' hgrows
      exact ⟨h₁, h₂, h₃, .inl ⟨rfl, hsame.2⟩⟩
    · refine Procedure.ensures_pure fun v' hgrows => ?_
      obtain ⟨h₁, h₂, h₃⟩ := hleft v' hgrows
      exact ⟨h₁, h₂, h₃, .inr rfl⟩

end

/-! ### One declared job after another -/

/-- Where the condition of a declared job has its id from when the job has had its turn: the
condition was there before, or the id is that of the retained one, or else it was chosen. -/
inductive Takes (key : OwnerKey) (r : Resource) (s : Status) (j : JobSpec) (v : View) (d : Draft)
    (c : Condition) : Prop
  | left (hfind : d.conditions.find? (·.name == j.name) = some c)
  | kept {kept : Condition} (hid : c.jobId = kept.jobId)
      (hfind : (retained r.spec s).find? (·.name == j.name) = some kept)
  | chosen (hnone : (retained r.spec s).find? (·.name == j.name) = none)
      (hchosen : Chooses key v d j.name c.jobId)

/-- What comes of bringing one declared job into effect. -/
structure Brings (key : OwnerKey) (r : Resource) (s : Status) (j : JobSpec) (v : View) (d : Draft)
    (v' : View) (d' : Draft) : Prop where
  resource : v'.resource = v.resource
  jobs : ∀ id, v'.issued id ≠ some (key, j.name) → v'.jobs id = v.jobs id
  alters : Alters j.name d d'
  settled : ∃ c, d'.conditions.find? (·.name == j.name) = some c ∧ Settled r s j v'.jobs c
  takes : ∀ job, Job.build r j "" = .ok job →
    ∀ c, d'.conditions.find? (·.name == j.name) = some c → Takes key r s j v d c

section

variable {key : OwnerKey} {v : View} {r : Resource} {s : Status} {j : JobSpec} {d : Draft}

theorem Takes.of_grows {v₁ : View} {c : Condition} (hgrows : v.Grows v₁)
    (h : Takes key r s j v₁ d c) : Takes key r s j v d c := by
  cases h with
  | left hfind => exact .left hfind
  | kept hid hfind => exact .kept hid hfind
  | chosen hnone hchosen => exact .chosen hnone (hchosen.of_grows hgrows)

theorem Brings.of_grows {v₁ v' : View} {d' : Draft} (hgrows : v.Grows v₁)
    (h : Brings key r s j v₁ d v' d') : Brings key r s j v d v' d' where
  resource := h.resource.trans hgrows.resource
  jobs := fun id hid => (h.jobs id hid).trans (by rw [hgrows.jobs])
  alters := h.alters
  settled := h.settled
  takes := fun job hbuild c hfind => (h.takes job hbuild c hfind).of_grows hgrows

theorem ensures_brings_of_grows {v₁ v₂ : View} {p : Procedure Desk Draft} (hgrows : v.Grows v₁)
    (h : p.Ensures key (Brings key r s j v₁ d) v₂) : p.Ensures key (Brings key r s j v d) v₂ :=
  h.weaken fun _ _ _ hbrings => hbrings.of_grows hgrows

/-- The condition that stands for a job that was submitted. -/
theorem settled_of_submit {jobs : String → Option Job} {job queued : Job} {c : Condition}
    (hbuild : Job.build r j "" = .ok job) (hrun : ¬HasRun r.spec s j)
    (hunchanged : unchanged c j = true)
    (hstate : ¬(j.isRunOnce = true ∧ c.state.isTerminal = true))
    (hqueued : jobs c.jobId = some queued)
    (hdiffers : queued.differsFrom { job with id := c.jobId } = false) : Settled r s j jobs c where
  declared := hunchanged
  unbuilt := fun e he => absurd (hbuild.symm.trans he) (by simp)
  ran := fun _ _ => iff_of_false hrun hstate
  kept := fun h => absurd h hrun
  run := fun h => absurd h hrun
  queued := by
    intro _ job' hjob'
    obtain rfl := Except.ok.inj (hbuild.symm.trans hjob')
    exact ⟨queued, hqueued, hdiffers⟩

/-- What is settled stays so if the job is submitted once more. -/
theorem Settled.submit {jobs jobs' : String → Option Job} {job queued : Job} {id : String}
    {c : Condition} (h : Settled r s j jobs c) (hbuild : Job.build r j "" = .ok job)
    (hrun : ¬HasRun r.spec s j) (hothers : ∀ id', id' ≠ id → jobs' id' = jobs id')
    (hqueued : jobs' id = some queued)
    (hdiffers : queued.differsFrom { job with id := id } = false) : Settled r s j jobs' c := by
  refine ⟨h.declared, h.unbuilt, h.ran, h.kept, fun hran => absurd hran hrun,
    fun _ job' hjob' => ?_⟩
  by_cases hid : c.jobId = id
  · obtain rfl := Except.ok.inj (hbuild.symm.trans hjob')
    subst hid
    exact ⟨queued, hqueued, hdiffers⟩
  · rw [hothers c.jobId hid]
    exact h.queued hrun job' hjob'

/-- A job that is submitted under an id given out for it is settled, if the condition that is
retained for it names the id, or is as the job asks for already. -/
theorem brings_submit {v₀ : View} {d₀ : Draft} {job : Job} {id : String} {wasRetained : Bool}
    (now : Instant) (hgrows : v₀.Grows v) (htaken : TakesId j.name d₀ d)
    (hbuild : Job.build r j "" = .ok job) (hrun : ¬HasRun r.spec s j)
    (hid : v.issued id = some (key, j.name))
    (hretained : wasRetained = true → ∃ c, d.conditions.find? (·.name == j.name) = some c ∧
      (c.jobId = id ∧ unchanged c j = true ∧ ¬(j.isRunOnce = true ∧ c.state.isTerminal = true) ∨
        Settled r s j v.jobs c))
    (htakes : ∀ c, c.jobId = id → Takes key r s j v₀ d₀ c) :
    (submit j { job with id := id } now wasRetained d).Ensures key (Brings key r s j v₀ d₀) v := by
  refine (ensures_submit j _ now wasRetained d (parse_of_build (build_id hbuild id))).weaken ?_
  rintro v' d' hle ⟨hresource, hothers, ⟨queued, hqueued, hdiffers⟩, hd'⟩
  have hjobs : ∀ id', v'.issued id' ≠ some (key, j.name) → v'.jobs id' = v₀.jobs id' := by
    intro id' hid'
    rw [hothers id' fun heq => hid' (heq ▸ hle _ _ hid), hgrows.jobs]
  have hresource := hresource.trans hgrows.resource
  rcases hd' with ⟨rfl, hwas⟩ | rfl
  · obtain ⟨c, hfind, hnamed⟩ := hretained hwas
    refine ⟨hresource, hjobs, htaken.alters, ⟨c, hfind, ?_⟩, fun _ _ c hfind => .left ?_⟩
    · rcases hnamed with ⟨rfl, hunchanged, hstate⟩ | hsettled
      · exact settled_of_submit hbuild hrun hunchanged hstate hqueued hdiffers
      · exact hsettled.submit hbuild hrun hothers hqueued hdiffers
    · rw [← htaken.conditions]
      exact hfind
  · have halters : Alters j.name d (d.put (conditionOf j id .submitted now "")) :=
      alters_put d rfl
    have hfind : (d.put (conditionOf j id .submitted now "")).conditions.find?
        (·.name == j.name) = some (conditionOf j id .submitted now "") := find?_put d rfl
    have hstate : ¬(j.isRunOnce = true ∧ JobState.submitted.isTerminal = true) :=
      fun h => absurd h.2 (by decide)
    refine ⟨hresource, hjobs, halters.after htaken, ⟨_, hfind, ?_⟩, fun _ _ c hc => htakes c ?_⟩
    · exact settled_of_submit hbuild hrun (unchanged_conditionOf j id _ now "") hstate hqueued
        hdiffers
    · rw [← Option.some.inj (hfind.symm.trans hc)]
      rfl

theorem brings_refuse {e : Fault} {v' : View} (hgrows : v.Grows v')
    (hbuild : Job.build r j "" = .error e) (hawaits : Awaits r s j v.jobs d)
    (hkept : ∀ c, (retained r.spec s).find? (·.name == j.name) = some c → unchanged c j = true ∧
      (c.message = buildFailure j.name e → c.jobId = "")) (now : Instant) :
    Brings key r s j v d v'
      (refuse j e now ((retained r.spec s).find? (·.name == j.name)) d) := by
  have hsettled : ∀ {c}, c.jobId = "" → unchanged c j = true → Settled r s j v'.jobs c :=
    fun hid hdeclared => ⟨hdeclared, fun _ _ => hid,
      fun job hjob => absurd (hbuild.symm.trans hjob) (by simp),
      fun _ job hjob => absurd (hbuild.symm.trans hjob) (by simp),
      fun _ job hjob => absurd (hbuild.symm.trans hjob) (by simp),
      fun _ job hjob => absurd (hbuild.symm.trans hjob) (by simp)⟩
  have hjobs : ∀ id, v'.issued id ≠ some (key, j.name) → v'.jobs id = v.jobs id :=
    fun id _ => by rw [hgrows.jobs]
  have htakes : ∀ d' : Draft, ∀ job, Job.build r j "" = .ok job →
      ∀ c, d'.conditions.find? (·.name == j.name) = some c → Takes key r s j v d c :=
    fun _ job hjob => absurd (hbuild.symm.trans hjob) (by simp)
  simp only [refuse]
  split
  · rename_i hsaid
    obtain ⟨c, hc, hsame⟩ := (Option.any_eq_true _ _).1 hsaid
    simp only [Bool.and_eq_true, beq_iff_eq] at hsame
    obtain ⟨hdeclared, hid⟩ := hkept c hc
    refine ⟨hgrows.resource, hjobs, alters_refl j.name d, ?_, htakes d⟩
    rcases hawaits with huntouched | ⟨c', hfind, hsettled'⟩
    · exact ⟨c, huntouched.trans hc, hsettled (hid hsame.2) hdeclared⟩
    · exact ⟨c', hfind, hgrows.jobs ▸ hsettled'⟩
  · exact ⟨hgrows.resource, hjobs, alters_put d rfl, ⟨_, find?_put d rfl,
      hsettled rfl (unchanged_conditionOf j "" _ now _)⟩, htakes _⟩

/-- The condition of a job that has run stays the retained one. -/
theorem Awaits.find?_of_hasRun {jobs : String → Option Job} {job : Job} {kept : Condition}
    (h : Awaits r s j jobs d) (hdistinct : (s.conditions.map Condition.name).Nodup)
    (hfind : (retained r.spec s).find? (·.name == j.name) = some kept)
    (hbuild : Job.build r j "" = .ok job) (hran : HasRun r.spec s j) :
    d.conditions.find? (·.name == j.name) = some kept := by
  rcases h with huntouched | ⟨c, hc, hsettled⟩
  · exact huntouched.trans hfind
  · obtain ⟨hmem, hname⟩ := find?_eq_some_name hfind
    have hname' : c.name = j.name := (find?_eq_some_name hc).2
    have hc' := hsettled.kept hran job hbuild
    rw [hc, eq_of_nodup (nodup_retained hdistinct r.spec) hc' hmem (hname'.trans hname.symm)]

theorem ensures_settleKept {job : Job} {kept : Condition}
    (hdistinct : (s.conditions.map Condition.name).Nodup) (hbuild : Job.build r j "" = .ok job)
    (hissued : v.issued kept.jobId = some (key, j.name))
    (hfind : (retained r.spec s).find? (·.name == j.name) = some kept)
    (hawaits : Awaits r s j v.jobs d) (hdeclared : unchanged kept j = true) (now : Instant) :
    (settleKept j job kept now d).Ensures key (Brings key r s j v d) v := by
  unfold settleKept
  split
  · rename_i hran
    have hran : HasRun r.spec s j := (hasRun_iff hdistinct hfind).2 (by simpa using hran)
    have huntouched := hawaits.find?_of_hasRun hdistinct hfind hbuild hran
    refine Procedure.ensures_ask fun v₁ _ hle₁ _ hdeleted => ?_
    refine Procedure.ensures_pure fun v' hgrows => ⟨hgrows.resource.trans hdeleted.1,
      fun id hid => ?_, alters_refl j.name d, ⟨kept, huntouched, hdeclared, ?_, ?_, ?_, ?_, ?_⟩,
      fun _ _ c hfind => .left hfind⟩
    · have hne : id ≠ kept.jobId := by
        rintro rfl
        exact hid (hgrows.issued _ _ (hle₁ _ _ hissued))
      rw [hgrows.jobs, hdeleted.2, if_neg hne]
    · exact fun e he => absurd (hbuild.symm.trans he) (by simp)
    · exact fun _ _ => hasRun_iff hdistinct hfind
    · exact fun _ _ _ => (find?_eq_some_name hfind).1
    · intro _ _ _
      rw [hgrows.jobs, hdeleted.2, if_pos rfl]
    · exact fun hrun => absurd hran hrun
  · rename_i hran
    have hstate : ¬(j.isRunOnce = true ∧ kept.state.isTerminal = true) := by simpa using hran
    have hran : ¬HasRun r.spec s j := fun h => hstate ((hasRun_iff hdistinct hfind).1 h)
    refine brings_submit now (.refl v) (takesId_refl j.name d) hbuild hran hissued (fun _ => ?_)
      fun c hid => .kept hid hfind
    rcases hawaits with huntouched | ⟨c, hc, hsettled⟩
    · exact ⟨kept, huntouched.trans hfind, .inl ⟨rfl, hdeclared, hstate⟩⟩
    · exact ⟨c, hc, .inr hsettled⟩

theorem ensures_settleNew {job : Job} (hbuild : Job.build r j "" = .ok job)
    (hreusable : ReusableSound v.issued key d.reusable)
    (hnone : (retained r.spec s).find? (·.name == j.name) = none) (now : Instant) :
    (settleNew key j job now false d).Ensures key (Brings key r s j v d) v := by
  have hchosen := (ensures_chooseId d j.name).keeps (keeps_chooseId hreusable j.name)
  refine hchosen.seq fun v₁ p _ hp => ?_
  obtain ⟨id, d₁⟩ := p
  obtain ⟨⟨hgrows, htaken, hchooses⟩, i, hle, ⟨_, hid⟩, _⟩ := hp
  refine brings_submit now hgrows htaken hbuild (not_hasRun hnone) (hle _ _ hid)
    (fun h => absurd h (by decide)) fun c hc => .chosen hnone ?_
  rw [hc]
  exact hchooses

/-- A declared job whose turn has come is settled. -/
theorem ensures_settleJob (hkey : r.key = key) (halike : r.spec.Alike) (hj : j ∈ r.spec.jobs)
    (hdistinct : (s.conditions.map Condition.name).Nodup)
    (hleft : ∀ c ∈ retained r.spec s, c.Sound v.issued r.key (some r.spec.target))
    (hreusable : ReusableSound v.issued key d.reusable) (hawaits : Awaits r s j v.jobs d) :
    (settleJob key r (retained r.spec s) j d).Ensures key (Brings key r s j v d) v := by
  have hkept : ∀ {c}, (retained r.spec s).find? (·.name == j.name) = some c →
      c ∈ retained r.spec s ∧ c.name = j.name ∧ unchanged c j = true := by
    intro c hfind
    obtain ⟨hmem, hname⟩ := find?_eq_some_name hfind
    exact ⟨hmem, hname, unchanged_of_alike halike hj hmem hname⟩
  refine Procedure.ensures_ask fun v₁ now hle₁ _ hasked => ?_
  have hgrows₁ : v.Grows v₁ := ⟨hle₁, hasked.1, hasked.2⟩
  split
  · rename_i e hbuild
    refine Procedure.ensures_pure fun v' hgrows => ?_
    refine brings_refuse (hgrows₁.trans hgrows) hbuild hawaits (fun c hfind => ?_) now
    obtain ⟨hmem, hname, hdeclared⟩ := hkept hfind
    refine ⟨hdeclared, fun hmessage => Decidable.byContradiction fun hne => ?_⟩
    exact (hleft c hmem).notFailure hne e (hname ▸ hmessage)
  · rename_i job hbuild
    split
    · rename_i kept hfilter
      obtain ⟨hfind, hne⟩ := Option.filter_eq_some_iff.1 hfilter
      obtain ⟨hmem, hname, hdeclared⟩ := hkept hfind
      have hissued : v₁.issued kept.jobId = some (key, j.name) := by
        rw [← hname, ← hkey]
        exact hle₁ _ _ ((hleft kept hmem).issued (by simpa using hne))
      apply ensures_brings_of_grows hgrows₁
      exact ensures_settleKept hdistinct hbuild hissued hfind (hgrows₁.jobs.symm ▸ hawaits)
        hdeclared now
    · rename_i hfilter
      have hnone := eq_none_of_filter hbuild (fun c hfind => by
        obtain ⟨hmem, hname, hdeclared⟩ := hkept hfind
        exact ⟨hleft c hmem, hname, hdeclared⟩) hfilter
      rw [hnone]
      apply ensures_brings_of_grows hgrows₁
      exact ensures_settleNew hbuild (hreusable.mono hle₁) hnone now

end

end Reconcile

end CronScale
