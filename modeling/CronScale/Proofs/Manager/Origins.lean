import CronScale.Proofs.Manager.Retired
import CronScale.Proofs.Manager.Tidy
/-!
# Where ids come from

The condition of a declared job has its id from one of four places: from the condition that is
retained for the job, from a condition that is given up since the job is declared differently now,
from a job of its name that is queued still, or it was never given out before (`Origin`). So a job
keeps its id whatever of it is declared anew, and also when statuses could not be written, unless
target or excluded days have changed; then every job has a new one (`World.reconcile_keeps_ids`).
-/

namespace CronScale

open CronScale.Calendar

namespace Reconcile

/-- Whether no condition is retained for a name and no id is put by under it. -/
structure Forgotten (spec : Spec) (s : Status) (name : String) : Prop where
  left : (retained spec s).find? (·.name == name) = none
  put : reusableId (putBy spec s) name = none

/-- Where the id in the condition of a declared job comes from, as seen when the conditions of the
last status were divided. -/
inductive Origin (key : OwnerKey) (spec : Spec) (s : Status) (divided : View) (name id : String) :
    Prop
  | retained {c : Condition} (hfind : (retained spec s).find? (·.name == name) = some c)
      (hid : id = c.jobId)
  | reused (hput : reusableId (putBy spec s) name = some id)
  | queued (hgone : Forgotten spec s name) (hqueued : divided.jobs id ≠ none)
  | fresh (hgone : Forgotten spec s name)
      (hnone : ∀ id', divided.issued id' = some (key, name) → divided.jobs id' = none)
      (hfresh : divided.issued id = none)

/-- What turns of jobs with names of their own leave for the turns of those that are left to do, and
where the ids come from that the others have now. -/
structure Origins (key : OwnerKey) (r : Resource) (s : Status) (divided : View)
    (todo : List JobSpec) (v : View) (d : Draft) : Prop where
  later : divided.issued.Le v.issued
  waits : ∀ j ∈ todo, d.conditions.find? (·.name == j.name) =
    (retained r.spec s).find? (·.name == j.name)
  reusable : ∀ j ∈ todo, reusableId d.reusable j.name = reusableId (putBy r.spec s) j.name
  jobs : ∀ j ∈ todo, ∀ id, (∀ name, name ≠ j.name → v.issued id ≠ some (key, name)) →
    v.jobs id = divided.jobs id
  origins : ∀ j ∈ r.spec.jobs, j ∉ todo → ∀ job, Job.build r j "" = .ok job →
    ∀ c, d.conditions.find? (·.name == j.name) = some c →
      Origin key r.spec s divided j.name c.jobId

variable {key : OwnerKey} {v v' divided : View} {r : Resource} {s : Status} {j : JobSpec}
  {js : List JobSpec} {d d' : Draft}

theorem origins_start (r : Resource) (s : Status) (divided : View) (changed : Bool) :
    Origins key r s divided r.spec.jobs divided ⟨retained r.spec s, putBy r.spec s, changed⟩ where
  later := .refl _
  waits := fun _ _ => rfl
  reusable := fun _ _ => rfl
  jobs := fun _ _ _ _ => rfl
  origins := fun _ hj hnot => absurd hj hnot

/-- The id that a job takes in its turn comes from one of the four places. -/
theorem Origins.origin {c : Condition} (h : Origins key r s divided (j :: js) v d)
    (htakes : Takes key r s j v d c) (hle : v.issued.Le v'.issued)
    (hid : v'.issued c.jobId = some (key, j.name)) :
    Origin key r.spec s divided j.name c.jobId := by
  have hput := h.reusable j List.mem_cons_self
  have hjobs := h.jobs j List.mem_cons_self
  cases htakes with
  | left hfind => exact .retained ((h.waits j List.mem_cons_self).symm.trans hfind) rfl
  | kept hkept hfind => exact .retained hfind hkept
  | chosen hnone hchosen =>
    cases hchosen with
    | reused hreused => exact .reused (hput.symm.trans hreused)
    | queued hnot hqueued =>
      refine .queued ⟨hnone, hput.symm.trans hnot⟩ fun hunqueued => hqueued ?_
      rw [hjobs _ fun name hne hname => ?_, hunqueued]
      have hsame := (hle _ _ hname).symm.trans hid
      exact hne (Prod.mk.inj (Option.some.inj hsame)).2
    | fresh hnot hunqueued hfresh =>
      refine .fresh ⟨hnone, hput.symm.trans hnot⟩ (fun id hissued => ?_) ?_
      · have hissued' := h.later _ _ hissued
        rw [← hjobs id fun name hne hname => ?_]
        · exact hunqueued id hissued'
        · exact hne (Prod.mk.inj (Option.some.inj (hname.symm.trans hissued'))).2
      · exact h.later.eq_none hfresh

theorem Origins.turn (h : Origins key r s divided (j :: js) v d) (hkey : r.key = key)
    (hnames : (r.spec.jobs.map JobSpec.name).Nodup) (hjs : (j :: js).Sublist r.spec.jobs)
    (hle : v.issued.Le v'.issued) (hbrings : Brings key r s j v d v' d')
    (hd' : DraftSound v'.issued r d') : Origins key r s divided js v' d' := by
  have hj : j ∈ r.spec.jobs := hjs.subset List.mem_cons_self
  have hnodup : ((j :: js).map JobSpec.name).Nodup := hnames.sublist (hjs.map _)
  rw [List.map_cons, List.nodup_cons] at hnodup
  have hothers : ∀ j' ∈ js, j'.name ≠ j.name :=
    fun j' hj' heq => hnodup.1 (heq ▸ List.mem_map_of_mem hj')
  refine ⟨h.later.trans hle, fun j' hj' => ?_, fun j' hj' => ?_, fun j' hj' id hid => ?_,
    fun j' hj' hdone job hbuild c hfind => ?_⟩
  · rw [hbrings.alters.others _ (hothers j' hj')]
    exact h.waits j' (List.mem_cons_of_mem j hj')
  · rw [hbrings.alters.reusable _ (hothers j' hj')]
    exact h.reusable j' (List.mem_cons_of_mem j hj')
  · rw [hbrings.jobs id (hid j.name (hothers j' hj').symm)]
    refine h.jobs j' (List.mem_cons_of_mem j hj') id fun name hne hname => ?_
    exact hid name hne (hle _ _ hname)
  · by_cases hname : j'.name = j.name
    · obtain rfl := eq_of_nodup hnames hj' hj hname
      obtain ⟨hmem, hcname⟩ := find?_eq_some_name hfind
      obtain ⟨c', hfind', hsettled⟩ := hbrings.settled
      obtain rfl := Option.some.inj (hfind.symm.trans hfind')
      have hsound := hd'.conditions c hmem
      have hne := named_of_build hbuild hsound hcname hsettled.declared
      have hissued := hsound.issued hne
      rw [hkey, hcname] at hissued
      exact h.origin (hbrings.takes job hbuild c hfind) hle hissued
    · have hnot : j' ∉ j :: js := by
        rw [List.mem_cons, not_or]
        exact ⟨fun heq => hname (congrArg JobSpec.name heq), hdone⟩
      rw [hbrings.alters.others _ hname] at hfind
      exact h.origins j' hj' hnot job hbuild c hfind

theorem Origins.abides (hkey : r.key = key) (hnames : (r.spec.jobs.map JobSpec.name).Nodup)
    (s : Status) (divided : View) : Abides key r s (Origins key r s divided) where
  turn := fun _ _ _ _ _ _ hjs hle hbrings hd' h => h.turn hkey hnames hjs hle hbrings hd'
  grows := fun _ _ _ hgrows h =>
    ⟨h.later.trans hgrows.issued, fun _ hj => absurd hj List.not_mem_nil,
      fun _ hj => absurd hj List.not_mem_nil, fun _ hj => absurd hj List.not_mem_nil, h.origins⟩

/-! ### What the places come to -/

theorem reusableId_ne_none {reusable : List (String × String)} {name id : String}
    (h : (name, id) ∈ reusable) : reusableId reusable name ≠ none := by
  have hmem : (name, id) ∈ reusable.filter (·.1 == name) :=
    List.mem_filter.2 ⟨h, beq_self_eq_true name⟩
  intro hnone
  rw [reusableId, Option.map_eq_none_iff, List.getLast?_eq_none_iff] at hnone
  exact absurd (hnone ▸ hmem) List.not_mem_nil

theorem mem_of_putBy {spec : Spec} {name id : String}
    (h : reusableId (putBy spec s) name = some id) :
    ∃ c ∈ s.conditions, c.name = name ∧ c.jobId = id ∧ id ≠ "" := by
  have hmem := mem_of_reusableId h
  unfold putBy at hmem
  split at hmem
  · exact absurd hmem List.not_mem_nil
  · obtain ⟨c, hc, hpair⟩ := List.mem_map.1 hmem
    obtain ⟨hc, hredeclares⟩ := List.mem_filter.1 hc
    obtain ⟨rfl, rfl⟩ := Prod.mk.inj hpair
    have hne : c.jobId ≠ "" := by simpa using (Bool.and_eq_true_iff.1 hredeclares).2
    exact ⟨c, hc, rfl, rfl, hne⟩

/-- The condition of a declared job that has an id is retained, or its id is put by. -/
theorem not_forgotten {spec : Spec} {c : Condition} (hglobal : s.globalChange spec = false)
    (hnames : (spec.jobs.map JobSpec.name).Nodup) (hj : j ∈ spec.jobs) (hc : c ∈ s.conditions)
    (hname : c.name = j.name) (hne : c.jobId ≠ "") : ¬Forgotten spec s j.name := by
  rintro ⟨hleft, hput⟩
  have hfind := find?_of_nodup hnames hj
  rw [← hname] at hfind
  cases hunchanged : unchanged c j with
  | true =>
    have hmem := mem_retained hnames hj hglobal hc hname hunchanged
    exact List.find?_eq_none.1 hleft c hmem (beq_iff_eq.2 hname)
  | false =>
    have hmem : (c.name, c.jobId) ∈ putBy spec s := by
      simp only [putBy, hglobal, Bool.false_eq_true, if_false]
      refine List.mem_map_of_mem (List.mem_filter.2 ⟨hc, ?_⟩)
      simp only [redeclares, hfind, Option.any_some, hunchanged, Bool.not_false, Bool.true_and,
        bne_iff_ne, ne_eq, hne, not_false_eq_true]
    exact reusableId_ne_none (hname ▸ hmem) hput

/-- The id in the condition of a declared job is kept. -/
theorem Origin.eq {spec : Spec} {id : String} {c : Condition}
    (h : Origin key spec s divided j.name id) (hglobal : s.globalChange spec = false)
    (hnames : (spec.jobs.map JobSpec.name).Nodup) (hj : j ∈ spec.jobs)
    (hdistinct : (s.conditions.map Condition.name).Nodup) (hc : c ∈ s.conditions)
    (hname : c.name = j.name) (hne : c.jobId ≠ "") : id = c.jobId := by
  have hgone := not_forgotten hglobal hnames hj hc hname hne
  cases h with
  | retained hfind hid =>
    obtain ⟨hmem, hname'⟩ := find?_eq_some_name hfind
    have hmem := (retained_sublist spec s).subset hmem
    rw [hid, eq_of_nodup hdistinct hmem hc (hname'.trans hname.symm)]
  | reused hput =>
    obtain ⟨c', hc', hname', hid, _⟩ := mem_of_putBy hput
    rw [← hid, eq_of_nodup hdistinct hc' hc (hname'.trans hname.symm)]
  | queued hforgotten => exact absurd hforgotten hgone
  | fresh hforgotten => exact absurd hforgotten hgone

/-- Where no condition with an id has the name of a job, the id is one under which the job is
queued, if there is one. -/
theorem Origin.queued_of_unnamed {spec : Spec} {id id' : String}
    (h : Origin key spec s divided j.name id) (hne : id ≠ "")
    (hunnamed : ∀ c ∈ s.conditions, c.name = j.name → c.jobId = "")
    (hissued : divided.issued id' = some (key, j.name)) (hqueued : divided.jobs id' ≠ none) :
    divided.jobs id ≠ none := by
  cases h with
  | @retained c hfind hid =>
    obtain ⟨hmem, hname⟩ := find?_eq_some_name hfind
    exact absurd (hid.trans (hunnamed c ((retained_sublist spec s).subset hmem) hname)) hne
  | reused hput =>
    obtain ⟨c, hc, hname, hid, hne'⟩ := mem_of_putBy hput
    exact absurd (hid.symm.trans (hunnamed c hc hname)) hne'
  | queued _ hqueued' => exact hqueued'
  | fresh _ hnone _ => exact absurd (hnone id' hissued) hqueued

/-- When target or excluded days have changed, the id was never given out before. -/
theorem Origin.issued_eq_none {spec : Spec} {id : String}
    (h : Origin key spec s divided j.name id) (hglobal : s.globalChange spec = true)
    (hanew : ∀ id, divided.jobs id = none) : divided.issued id = none := by
  cases h with
  | retained hfind hid =>
    rw [Reconcile.retained, if_pos hglobal] at hfind
    exact absurd hfind (by simp)
  | reused hput =>
    rw [putBy, if_pos hglobal] at hput
    exact absurd hput (by simp [reusableId])
  | queued _ hqueued => exact absurd (hanew id) hqueued
  | fresh _ _ hfresh => exact hfresh

theorem Ends.of_grows {v₁ settled : View} {result : Except Fault Unit}
    (hgrows : v.Grows v₁) (h : Ends r v₁ divided settled d v' result) :
    Ends r v divided settled d v' result where
  first := hgrows.issued.trans h.first
  last := h.last
  divides := h.divides.of_jobs hgrows.jobs
  done := h.done
  stored := h.stored

end Reconcile

/-- A reconcile fails to fetch its resource, or its conditions have their ids from the four
places. -/
theorem ensures_reconcile_origins {key : OwnerKey} {v : View} {r : Resource}
    (hresource : v.resource = some r) (hnames : (r.spec.jobs.map JobSpec.name).Nodup) :
    (reconcile key).Ensures key (fun v' result => (∃ e, result = .error e ∧ v.Grows v') ∨
      ∃ divided settled d, Reconcile.Ends r v divided settled d v' result ∧
        Reconcile.Origins key r (r.status.getD .initial) divided [] settled d) v := by
  refine Procedure.ensures_ask fun v₁ reply hle hfits hfetched => ?_
  obtain ⟨hjobs₁, hresource₁, hreply⟩ := hfetched
  have hgrows₁ : v.Grows v₁ := ⟨hle, hjobs₁, hresource₁⟩
  match reply with
  | .error e => exact Procedure.ensures_pure fun v' hgrows => .inl ⟨e, rfl, hgrows₁.trans hgrows⟩
  | .ok none => exact absurd ((hreply rfl none rfl).trans hresource) (Option.some_ne_none r).symm
  | .ok (some r') =>
    obtain rfl : r' = r := Option.some.inj ((hreply rfl _ rfl).trans hresource)
    have hsound := hfits r' rfl
    refine (Reconcile.ensures_settleResource_ends hsound (hresource₁.trans hresource)
      (Spec.alike_of_nodup hnames) (Reconcile.Origins.abides hsound.filed hnames _)
      (Reconcile.origins_start r' _)).weaken fun v' result _ hends => .inr ?_
    obtain ⟨divided, settled, d, hends, horigins⟩ := hends
    exact ⟨divided, settled, d, hends.of_grows hgrows₁, horigins⟩

/-- An id that is given out for a name at some time stands in no condition of another name. -/
theorem Status.Sound.name_of_issued {s : Status} {i i' : Issued} {key : OwnerKey}
    {name id : String} (hs : s.Sound i key) (hle : i.Le i') (hid : i' id = some (key, name))
    (hne : id ≠ "") : ∀ c ∈ s.conditions, c.jobId = id → c.name = name := by
  rintro c hc rfl
  have hissued := hle _ _ ((hs.conditions c hc).issued hne)
  exact (Prod.mk.inj (Option.some.inj (hissued.symm.trans hid))).2

namespace World

variable {w w' : World} {key : OwnerKey} {r : Resource} {j : JobSpec} {c : Condition}

/-- Whether a job of a resource with a name is queued under an id. -/
def Queues (w : World) (key : OwnerKey) (name id : String) : Prop :=
  ∃ job, w.manager.queue.get? id = some job ∧ job.owner = key ∧ job.name = name

/-- Whether the condition of a declared job, and what is queued for it after a reconcile, carry the
id that the job had in the last status, or else the one under which it was queued; when target or
excluded days have changed, one that occurs neither there nor there. -/
structure Identifies (w w' : World) (key : OwnerKey) (r : Resource) (j : JobSpec) (c : Condition) :
    Prop where
  name : c.name = j.name
  named : c.jobId ≠ ""
  queued : ¬Reconcile.HasRun r.spec (r.status.getD .initial) j → w'.Queues key j.name c.jobId
  only : ∀ id, w'.Queues key j.name id → id = c.jobId
  kept : (r.status.getD .initial).globalChange r.spec = false →
    ∀ c₀ ∈ (r.status.getD .initial).conditions, c₀.name = j.name → c₀.jobId ≠ "" →
      c.jobId = c₀.jobId
  found : (r.status.getD .initial).globalChange r.spec = false →
    (∀ c₀ ∈ (r.status.getD .initial).conditions, c₀.name = j.name → c₀.jobId = "") →
      ∀ id, w.Queues key j.name id →
        w.Queues key j.name c.jobId ∧ (w.Unattended key → c.jobId = id)
  anew : (r.status.getD .initial).globalChange r.spec = true →
    (∀ c₀ ∈ (r.status.getD .initial).conditions, c₀.jobId ≠ c.jobId) ∧
      w.manager.queue.get? c.jobId = none

theorem queues_iff {name id : String} :
    w.Queues key name id ↔ ∃ job, (w.view key).jobs id = some job ∧ job.name = name := by
  simp only [Queues, jobs_view_eq_some, and_assoc]

theorem Queues.issued {name id : String} (h : w.Queues key name id) (hw : w.Good) :
    w.issued id = some (key, name) := by
  obtain ⟨job, hjob, rfl, rfl⟩ := h
  rw [← hw.lockstep.keyed id job hjob]
  exact (hw.queued id job hjob).issued

theorem Queues.holds {name id : String} (h : w.Queues key name id) : w.Holds key id := by
  obtain ⟨job, hjob, howner, _⟩ := h
  exact ⟨job, hjob, howner⟩

theorem Queues.jobs {name id : String} (h : w.Queues key name id) :
    (w.view key).jobs id ≠ none := by
  obtain ⟨job, hjob, _⟩ := queues_iff.1 h
  exact hjob ▸ Option.some_ne_none job

/-- What is queued under an id that is given out for a name at some time is a job of this name. -/
theorem queues_of_jobs {name id : String} {i : Issued} (hw : w.Good) (hle : w.issued.Le i)
    (hid : i id = some (key, name)) (hne : (w.view key).jobs id ≠ none) :
    w.Queues key name id := by
  obtain ⟨job, hjob⟩ := Option.ne_none_iff_exists'.1 hne
  have hqueues : w.Queues key job.name id := queues_iff.2 ⟨job, hjob, rfl⟩
  have hsame := (hle _ _ (hqueues.issued hw)).symm.trans hid
  rw [(Prod.mk.inj (Option.some.inj hsame)).2] at hqueues
  exact hqueues

/-- An id that was never given out stands in no condition and nothing is queued under it. -/
theorem absent_of_issued {s : Status} {id : String} (hw : w.Good) (hs : s.Sound w.issued key)
    (hid : w.issued id = none) (hne : id ≠ "") :
    (∀ c ∈ s.conditions, c.jobId ≠ id) ∧ w.manager.queue.get? id = none := by
  refine ⟨?_, Option.eq_none_iff_forall_ne_some.2 fun job hjob => ?_⟩
  · rintro c hc rfl
    exact absurd (hid.symm.trans ((hs.conditions c hc).issued hne)) (Option.some_ne_none _).symm
  · have hissued := (hw.queued id job hjob).issued
    rw [hw.lockstep.keyed id job hjob, hid] at hissued
    exact absurd hissued (Option.some_ne_none _).symm

section

variable {divided settled : View} {d : Draft} {result : Except Fault Unit} {job : Job}

/-- A job that no condition names with an id and that is queued is found again. -/
theorem found_of_origin {i : Issued} {id id' : String} (hw : Reachable w)
    (hresource : w.resources key = some r) (hle : w.issued.Le i)
    (hid : i id = some (key, j.name)) (hne : id ≠ "")
    (horigin : Reconcile.Origin key r.spec (r.status.getD .initial) divided j.name id)
    (hfirst : w.issued.Le divided.issued)
    (hdivides : Reconcile.Divides r.spec (r.status.getD .initial) (w.view key) divided)
    (hglobal : (r.status.getD .initial).globalChange r.spec = false)
    (hunnamed : ∀ c ∈ (r.status.getD .initial).conditions, c.name = j.name → c.jobId = "")
    (hqueued : w.Queues key j.name id') :
    w.Queues key j.name id ∧ (w.Unattended key → id = id') := by
  have hgood := good_of_reachable hw
  have hstatus := (hgood.resources key r hresource).status_getD
  have hid' := hqueued.issued hgood
  have hne' : id' ≠ "" := by
    rintro rfl
    exact absurd (hgood.unnamed.symm.trans hid') (Option.some_ne_none _).symm
  -- No condition has an id of the job, so none of them was dropped with the conditions.
  have hspared : ∀ id, id ≠ "" → i id = some (key, j.name) →
      divided.jobs id = (w.view key).jobs id := by
    intro id hne hid
    refine hdivides.spared hglobal id fun c hc heq => hne ?_
    rw [← heq, hunnamed c hc (hstatus.name_of_issued hle hid hne c hc heq)]
  have hfound : divided.jobs id ≠ none := by
    refine horigin.queued_of_unnamed hne hunnamed (hfirst _ _ hid') ?_
    rw [hspared id' hne' (hle _ _ hid')]
    exact hqueued.jobs
  rw [hspared id hne hid] at hfound
  have hqueues := queues_of_jobs hgood hle hid hfound
  refine ⟨hqueues, fun hidle => queued_once hw hidle id' id hqueued.holds hqueues.holds ?_⟩
  rw [hid', hqueues.issued hgood]

/-- Where the ids in the conditions of a draft come from the four places, the declared jobs are
identified. -/
theorem identifies_of_origins (hw : Reachable w) (hw' : w'.Good)
    (hresource : w.resources key = some r) (hnames : (r.spec.jobs.map JobSpec.name).Nodup)
    (hends : Reconcile.Ends r (w.view key) divided settled d (w'.view key) result)
    (horigins : Reconcile.Origins key r (r.status.getD .initial) divided [] settled d)
    (hj : j ∈ r.spec.jobs) (hbuild : Job.build r j "" = .ok job) :
    ∃ c ∈ d.conditions, Identifies w w' key r j c := by
  have hgood := good_of_reachable hw
  have hr := hgood.resources key r hresource
  have hstatus := hr.status_getD
  have hle : w.issued.Le w'.issued := (hends.first.trans horigins.later).trans hends.last
  obtain ⟨c, hc, hname, hsettled⟩ := hends.done.settled j hj
  have hsound := hends.done.sound c hc
  have hne := Reconcile.named_of_build hbuild hsound hname hsettled.declared
  have hissued := hsound.issued hne
  rw [hr.filed, hname] at hissued
  have hfind := find?_of_nodup hends.done.distinct hc
  rw [hname] at hfind
  have horigin := horigins.origins j hj List.not_mem_nil job hbuild c hfind
  refine ⟨c, hc, hname, hne, fun hrun => ?_, fun id hid => ?_, fun hglobal c₀ hc₀ hname₀ hne₀ => ?_,
    fun hglobal hunnamed id hid => ?_, fun hglobal => ?_⟩
  · obtain ⟨queued, hqueued, _⟩ := hsettled.queued hrun job hbuild
    exact queues_of_jobs hw' (.refl _) hissued (hqueued ▸ Option.some_ne_none queued)
  · obtain ⟨queued, hqueued, _⟩ := queues_iff.1 hid
    obtain ⟨c', hc', rfl, hne'⟩ := hends.done.only id queued hqueued
    have hissued' := (hends.done.sound c' hc').issued hne'
    have hsame := (Prod.mk.inj (Option.some.inj (hissued'.symm.trans (hid.issued hw')))).2
    rw [eq_of_nodup hends.done.distinct hc' hc (hsame.trans hname.symm)]
  · exact horigin.eq hglobal hnames hj hstatus.distinct hc₀ hname₀ hne₀
  · exact found_of_origin hw hresource hle hissued hne horigin hends.first hends.divides hglobal
      hunnamed hid
  · have hfresh := horigin.issued_eq_none hglobal (hends.divides.anew hglobal)
    have hnone : w.issued c.jobId = none := Option.eq_none_iff_forall_ne_some.2 fun o ho =>
      absurd (hfresh.symm.trans (hends.first _ _ ho)) (Option.some_ne_none o).symm
    exact absent_of_issued hgood hstatus hnone hne

end

/-- Whatever has happened before, a reconcile that goes on with nothing else touching the resource
or its jobs either fails to fetch the resource and changes nothing, or comes to conditions in which
every declared job that can be built is identified; they are stored if it succeeds. -/
theorem reconcile_keeps_ids {own : List (World × World)} {result : Except Fault Unit}
    (hw : Reachable w) (hexec : Exec (Aside key) w (reconcile key) own result w')
    (hresource : w.resources key = some r) (hnames : (r.spec.jobs.map JobSpec.name).Nodup) :
    ((∃ e, result = .error e) ∧ w'.resources key = some r ∧
      ∀ name id, w'.Queues key name id ↔ w.Queues key name id) ∨
    ∃ cs, (cs.map Condition.name).Nodup ∧
      (result = .ok () → ∃ r' s, w'.resources key = some r' ∧ r'.spec = r.spec ∧
        r'.status = some s ∧ s.conditions = cs) ∧
      ∀ j ∈ r.spec.jobs, ∀ job, Job.build r j "" = .ok job →
        ∃ c ∈ cs, Identifies w w' key r j c := by
  have hgood := good_of_reachable hw
  obtain ⟨hpost, hgood', _⟩ :=
    hexec.ensures hgood (keeps_reconcile key w.issued) (ensures_reconcile_origins hresource hnames)
  rcases hpost with ⟨e, rfl, hgrows⟩ | ⟨divided, settled, d, hends, horigins⟩
  · refine .inl ⟨⟨e, rfl⟩, hgrows.resource.trans hresource, fun name id => ?_⟩
    rw [queues_iff, queues_iff, hgrows.jobs]
  · refine .inr ⟨d.conditions, hends.done.distinct, fun hok => ?_, fun j hj job hbuild => ?_⟩
    · obtain ⟨r', s, hr', hspec, hs, hconditions, _⟩ := hends.stored hok
      exact ⟨r', s, hr', hspec, hs, hconditions⟩
    · exact identifies_of_origins hw hgood' hresource hnames hends horigins hj hbuild

/-- The same name with another schedule and another size, every hour. -/
def hourly : JobSpec := ⟨"up", "0 30 * * * *", false, 9⟩

/-- The world in which a job was reconciled at midnight, is declared otherwise then, and the manager
is set up anew. -/
def rescheduled : World :=
  { ((opened afterMidnight).carriedOut ⟨0, 0⟩ (task (reconcile (shop afterMidnight).key))).rewritten
      (shop hourly) "hourly" with
    manager := .empty .utc 0
    procedures := []
    executing := [] }

theorem reachable_rescheduled : Reachable rescheduled := by
  have hreconciled := reachable_carriedOut (reachable_opened afterMidnight)
    (.inl ⟨(shop afterMidnight).key, rfl⟩) ⟨0, 0⟩
  exact (reachable_rewritten hreconciled (shop hourly) "hourly").step (.restart .utc 0)

theorem hourly_keeps_id : ∃ own w' c,
    Exec (Aside (shop hourly).key) rescheduled (reconcile (shop hourly).key) own (.ok ()) w' ∧
      (∃ r s, w'.resources (shop hourly).key = some r ∧ r.status = some s ∧ c ∈ s.conditions) ∧
        c.jobId = "up" ∧ rescheduled.manager.queue.values = [] ∧
          w'.Queues (shop hourly).key "up" "up" := by
  have hsucceeds : succeeds ⟨60, 0⟩ (reconcile (shop hourly).key) rescheduled = true := by
    decide +kernel
  have hbuilt : (Job.build (shop hourly) hourly "").toOption.isSome = true := by decide +kernel
  have hstored : (rescheduled.resources (shop hourly).key).any (fun r =>
      decide (r.key = (shop hourly).key ∧ r.spec = (shop hourly).spec ∧
        (r.status.getD .initial).globalChange r.spec = false) &&
      (r.status.getD .initial).conditions.any fun c =>
        decide (c.name = "up" ∧ c.jobId = "up")) = true := by decide +kernel
  obtain ⟨own, w', hexec⟩ := exec_of_succeeds (Aside (shop hourly).key) hsucceeds
  obtain ⟨job, hjob⟩ := Option.isSome_iff_exists.1 hbuilt
  obtain ⟨r, hr, hrest⟩ := (Option.any_eq_true _ _).1 hstored
  obtain ⟨hsame, hconditions⟩ := Bool.and_eq_true_iff.1 hrest
  obtain ⟨hkey, hspec, hglobal⟩ := of_decide_eq_true hsame
  obtain ⟨c₀, hc₀, hnamed⟩ := List.any_eq_true.1 hconditions
  obtain ⟨hname₀, hid₀⟩ := of_decide_eq_true hnamed
  have hbuild := (Reconcile.build_congr hkey hspec hourly "").trans (eq_ok_of_toOption hjob)
  have hj : hourly ∈ r.spec.jobs := by
    rw [hspec]
    exact List.mem_cons_self
  rcases reconcile_keeps_ids reachable_rescheduled hexec hr (by rw [hspec]; decide) with
    ⟨⟨e, he⟩, _⟩ | ⟨cs, _, hstored', hidentified⟩
  · exact absurd he (by simp)
  · obtain ⟨c, hc, hidentifies⟩ := hidentified hourly hj job hbuild
    obtain ⟨r', s, hr', _, hs, rfl⟩ := hstored' rfl
    have hid : c.jobId = "up" :=
      (hidentifies.kept hglobal c₀ hc₀ hname₀ (by rw [hid₀]; decide)).trans hid₀
    have hrun : ¬Reconcile.HasRun r.spec (r.status.getD .initial) hourly :=
      fun hrun => absurd hrun.1 (by decide +kernel)
    have hqueued := hidentifies.queued hrun
    rw [hid] at hqueued
    exact ⟨own, w', c, hexec, ⟨r', s, hr', hs, hc⟩, hid, rfl, hqueued⟩

end World

end CronScale
