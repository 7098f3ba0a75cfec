import CronScale.Proofs.Manager.Activities
/-!
# Reconciles are sound

A reconcile asks for nothing that could make anything unsound, and for nothing that touches the
status or a job of another resource. It may work with a copy that is out of date: what it queues and
writes is sound because the copy was, and because ids never change hands.
-/

namespace CronScale

open CronScale.Calendar

namespace Reconcile

/-- What a reconcile of a resource may ask for. -/
def Allowed (key : OwnerKey) (i : Issued) (c : DeskCall) : Prop := c.Sound i ∧ c.Within key i

theorem Allowed.mono {key : OwnerKey} {i i' : Issued} {c : DeskCall} (h : Allowed key i c)
    (hle : i.Le i') : Allowed key i' c :=
  ⟨h.1.mono hle, h.2.mono hle⟩

/-- Whether the ids put by were given out for jobs of their names. -/
def ReusableSound (i : Issued) (key : OwnerKey) (reusable : List (String × String)) : Prop :=
  ∀ p ∈ reusable, p.2 ≠ "" ∧ i p.2 = some (key, p.1)

variable {i i' : Issued} {key : OwnerKey}

theorem ReusableSound.mono {reusable : List (String × String)} (h : ReusableSound i key reusable)
    (hle : i.Le i') : ReusableSound i' key reusable :=
  fun p hp => ⟨(h p hp).1, hle _ _ (h p hp).2⟩

theorem reusableSound_nil (i : Issued) (key : OwnerKey) : ReusableSound i key [] :=
  fun _ h => absurd h List.not_mem_nil

/-- Whether what a reconcile has come to is sound, if the declared target is adopted. -/
structure DraftSound (i : Issued) (r : Resource) (d : Draft) : Prop where
  distinct : (d.conditions.map Condition.name).Nodup
  conditions : ∀ c ∈ d.conditions, c.Sound i r.key (some r.spec.target)
  reusable : ReusableSound i r.key d.reusable

theorem DraftSound.mono {r : Resource} {d : Draft} (h : DraftSound i r d) (hle : i.Le i') :
    DraftSound i' r d :=
  ⟨h.distinct, fun c hc => (h.conditions c hc).mono hle, h.reusable.mono hle⟩

theorem DraftSound.put {r : Resource} {d : Draft} {c : Condition} (h : DraftSound i r d)
    (hc : c.Sound i r.key (some r.spec.target)) : DraftSound i r (d.put c) where
  distinct := Condition.nodup_mergeByName c h.distinct
  conditions := by
    intro d' hd'
    rcases Condition.mem_mergeByName hd' with rfl | hd'
    · exact hc
    · exact h.conditions d' hd'
  reusable := h.reusable

/-- The texts differ in their eleventh letter. -/
theorem queueFailure_ne_buildFailure (name name' : String) (e e' : Fault) :
    queueFailure name e ≠ buildFailure name' e' := by
  have htexts : ∀ a b c d : String,
      "Failed to update cron hpa job " ++ a ++ ",because of " ++ b ≠
        "Failed to create cron hpa job " ++ c ++ ",because of " ++ d := by
    intro a b c d h
    have hletter := congrArg (fun s : String => s.toList[10]?) h
    simp [String.toList_append] at hletter
  exact htexts name e.message name' e'.message

theorem empty_ne_buildFailure (name : String) (e : Fault) : "" ≠ buildFailure name e := by
  have htexts : ∀ a b : String,
      "" ≠ "Failed to create cron hpa job " ++ a ++ ",because of " ++ b := by
    intro a b h
    have hletter := congrArg (fun s : String => s.toList[0]?) h
    simp [String.toList_append] at hletter
  exact htexts name e.message

/-- A condition with an id that says nothing about building. -/
theorem sound_conditionOf {r : Resource} {j : JobSpec} {id : String} {state : JobState}
    {now : Instant} {message : String} (hne : id ≠ "") (hid : i id = some (r.key, j.name))
    (hmessage : ∀ e, message ≠ buildFailure j.name e) (t : Option TargetSpec) :
    (conditionOf j id state now message).Sound i r.key t where
  issued := fun _ => hid
  notFailure := fun _ => hmessage
  failure := fun h => absurd h hne

/-- A condition that says why a job cannot be built. -/
theorem sound_buildFailure {r : Resource} {j : JobSpec} {now : Instant} {e : Fault}
    (hbuild : Job.build r j "" = .error e) :
    (conditionOf j "" .failed now (buildFailure j.name e)).Sound i r.key (some r.spec.target) where
  issued := fun h => absurd rfl h
  notFailure := fun h => absurd rfl h
  failure := fun _ => ⟨r.spec.target, e, rfl, Job.build_error_iff.1 hbuild, rfl, rfl⟩

/-! ### The parts of a reconcile -/

theorem keeps_complain (r : Resource) :
    (complain key r).Keeps (Allowed key) (fun _ _ => True) i := by
  refine (Procedure.keeps_ask ⟨trivial, trivial⟩).seq fun i₁ new _ _ => ?_
  cases new with
  | false => trivial
  | true =>
    cases r.spec.complaintText with
    | none => trivial
    | some text =>
      exact (Procedure.keeps_ask ⟨trivial, trivial⟩).weaken (fun _ _ h => h) fun _ _ _ _ => trivial

theorem keeps_dropJob {c : Condition} {t : Option TargetSpec} (hc : c.Sound i key t) :
    (dropJob c).Keeps (Allowed key) (fun _ _ => True) i := by
  unfold dropJob
  split
  · trivial
  · rename_i hne
    exact (Procedure.keeps_ask ⟨trivial, c.name, hc.issued hne⟩).seq fun _ _ _ _ => trivial

theorem keeps_sift {spec : Spec} {cs : List Condition} {t : Option TargetSpec}
    (hcs : ∀ c ∈ cs, c.Sound i key t) :
    (sift spec cs).Keeps (Allowed key)
      (fun i' p => p.1.Sublist cs ∧ ReusableSound i' key p.2) i := by
  induction cs generalizing i with
  | nil => exact ⟨.slnil, reusableSound_nil i key⟩
  | cons c cs ih =>
    obtain ⟨hc, hcs⟩ := List.forall_mem_cons.1 hcs
    have hdrop := keeps_dropJob hc
    unfold sift
    split
    · rename_i j _
      split
      · refine (ih hcs).seq fun i₁ p _ hp => ?_
        exact ⟨hp.1.cons_cons c, hp.2⟩
      · refine hdrop.seq fun i₁ _ hle₁ _ => ?_
        refine (ih fun c' hc' => (hcs c' hc').mono hle₁).seq fun i₂ p hle₂ hp => ?_
        refine ⟨hp.1.cons c, ?_⟩
        split
        · exact hp.2
        · rename_i hne
          refine List.forall_mem_cons.2 ⟨⟨hne, ?_⟩, hp.2⟩
          exact hle₂ _ _ (hle₁ _ _ (hc.issued hne))
    · refine hdrop.seq fun i₁ _ hle₁ _ => ?_
      refine (ih fun c' hc' => (hcs c' hc').mono hle₁).weaken (fun _ _ h => h) fun _ p _ hp => ?_
      exact ⟨hp.1.cons c, hp.2⟩

theorem mem_of_reusableId {reusable : List (String × String)} {name id : String}
    (h : reusableId reusable name = some id) : (name, id) ∈ reusable := by
  obtain ⟨p, hp, rfl⟩ := Option.map_eq_some_iff.1 h
  have hmem := List.mem_filter.1 (List.mem_of_getLast? hp)
  have hname : p.1 = name := by simpa using hmem.2
  exact hname ▸ hmem.1

theorem keeps_chooseId {d : Draft} (hd : ReusableSound i key d.reusable) (name : String) :
    (chooseId key d name).Keeps (Allowed key)
      (fun i' p => (p.1 ≠ "" ∧ i' p.1 = some (key, name)) ∧ p.2.conditions = d.conditions ∧
        ReusableSound i' key p.2.reusable) i := by
  unfold chooseId
  split
  · rename_i id hid
    refine ⟨hd _ (mem_of_reusableId hid), rfl, fun p hp => ?_⟩
    exact hd p (List.mem_filter.1 hp).1
  · refine (Procedure.keeps_ask ⟨trivial, trivial⟩).seq fun i₁ reply hle₁ hreply => ?_
    cases reply with
    | some id => exact ⟨hreply id rfl, rfl, hd.mono hle₁⟩
    | none =>
      refine (Procedure.keeps_ask ⟨trivial, trivial⟩).seq fun i₂ id hle₂ hid => ?_
      exact ⟨hid, rfl, (hd.mono hle₁).mono hle₂⟩

theorem keeps_submit {r : Resource} {j : JobSpec} {job : Job} {d : Draft} (hkey : r.key = key)
    (hjob : job.Sound i) (howner : job.owner = r.key) (hname : job.name = j.name)
    (hd : DraftSound i r d) (now : Instant) (retained : Bool) :
    (submit j job now retained d).Keeps (Allowed key) (fun i' d' => DraftSound i' r d') i := by
  refine (Procedure.keeps_ask ⟨hjob, howner.trans hkey⟩).seq fun i₁ reply hle _ => ?_
  have hjob₁ := hjob.mono hle
  have hid : i₁ job.id = some (r.key, j.name) := by rw [hjob₁.issued, howner, hname]
  have hput : ∀ state message, (∀ e, message ≠ buildFailure j.name e) →
      DraftSound i₁ r (d.put (conditionOf j job.id state now message)) :=
    fun state message hmessage =>
      (hd.mono hle).put (sound_conditionOf hjob.named hid hmessage _)
  cases reply with
  | ok change =>
    show Procedure.Keeps _ _ (if change = .unchanged ∧ retained then pure d else pure _) i₁
    split
    · exact hd.mono hle
    · exact hput _ _ fun e => empty_ne_buildFailure j.name e
  | error e => exact hput _ _ fun e' => queueFailure_ne_buildFailure j.name j.name e e'

theorem job_of_build {r : Resource} {j : JobSpec} {id : String} {job : Job}
    (h : Job.build r j id = .ok job) :
    job.id = id ∧ job.owner = r.key ∧ job.name = j.name ∧ job.schedule = j.schedule := by
  unfold Job.build at h
  split at h
  · cases h
  split at h
  · cases h
  split at h
  · cases h
  · cases h
    exact ⟨rfl, rfl, rfl, rfl⟩

theorem find?_eq_some_name {left : List Condition} {name : String} {c : Condition}
    (h : left.find? (·.name == name) = some c) : c ∈ left ∧ c.name = name :=
  ⟨List.mem_of_find?_eq_some h, by simpa using List.find?_some h⟩

theorem draftSound_refuse {r : Resource} {j : JobSpec} {d : Draft} {e : Fault}
    (hbuild : Job.build r j "" = .error e) (hd : DraftSound i r d) (now : Instant)
    (kept : Option Condition) : DraftSound i r (refuse j e now kept d) := by
  simp only [refuse]
  split
  · exact hd
  · exact hd.put (sound_buildFailure hbuild)

theorem keeps_settleKept {r : Resource} {j : JobSpec} {job : Job} {kept : Condition} {d : Draft}
    (hkey : r.key = key) (hbuild : Job.build r j "" = .ok job) (hne : kept.jobId ≠ "")
    (hissued : i kept.jobId = some (r.key, j.name)) (hd : DraftSound i r d) (now : Instant) :
    (settleKept j job kept now d).Keeps (Allowed key) (fun i' d' => DraftSound i' r d') i := by
  obtain ⟨_, howner, hname, _⟩ := job_of_build hbuild
  unfold settleKept
  split
  · refine (Procedure.keeps_ask ⟨trivial, j.name, hkey ▸ hissued⟩).seq fun i₁ _ hle _ => ?_
    exact hd.mono hle
  · have hjob : Job.Sound i { job with id := kept.jobId } := ⟨hne, by rw [howner, hname, hissued]⟩
    exact keeps_submit hkey hjob howner hname hd now true

theorem keeps_settleNew {r : Resource} {j : JobSpec} {job : Job} {d : Draft} (hkey : r.key = key)
    (hbuild : Job.build r j "" = .ok job) (hd : DraftSound i r d) (now : Instant)
    (wasRetained : Bool) :
    (settleNew key j job now wasRetained d).Keeps (Allowed key)
      (fun i' d' => DraftSound i' r d') i := by
  obtain ⟨_, howner, hname, _⟩ := job_of_build hbuild
  refine (keeps_chooseId (hkey ▸ hd.reusable) j.name).seq fun i₁ p hle hp => ?_
  obtain ⟨id, d₁⟩ := p
  obtain ⟨⟨hne, hid⟩, hconditions, hreusable⟩ := hp
  have hd₁ : DraftSound i₁ r d₁ := by
    have hdistinct := hd.distinct
    have hsound := (hd.mono hle).conditions
    rw [← hconditions] at hdistinct hsound
    exact ⟨hdistinct, hsound, hkey ▸ hreusable⟩
  have hjob : Job.Sound i₁ { job with id := id } := ⟨hne, by rw [howner, hname, hkey, hid]⟩
  exact keeps_submit hkey hjob howner hname hd₁ now wasRetained

theorem keeps_settleJob {r : Resource} {left : List Condition} {d : Draft} (hkey : r.key = key)
    (hleft : ∀ c ∈ left, c.Sound i r.key (some r.spec.target)) (hd : DraftSound i r d)
    (j : JobSpec) :
    (settleJob key r left j d).Keeps (Allowed key) (fun i' d' => DraftSound i' r d') i := by
  refine (Procedure.keeps_ask ⟨trivial, trivial⟩).seq fun i₁ now hle₁ _ => ?_
  split
  · rename_i e hbuild
    exact draftSound_refuse hbuild (hd.mono hle₁) now _
  · rename_i job hbuild
    split
    · rename_i kept hkept
      obtain ⟨hfind, hne⟩ := Option.filter_eq_some_iff.1 hkept
      obtain ⟨hmem, hname⟩ := find?_eq_some_name hfind
      have hne : kept.jobId ≠ "" := by simpa using hne
      refine keeps_settleKept hkey hbuild hne ?_ (hd.mono hle₁) now
      rw [← hname]
      exact hle₁ _ _ ((hleft kept hmem).issued hne)
    · exact keeps_settleNew hkey hbuild (hd.mono hle₁) now _

theorem keeps_settleJobs {r : Resource} {left : List Condition} {d : Draft} (hkey : r.key = key)
    (hleft : ∀ c ∈ left, c.Sound i r.key (some r.spec.target)) (hd : DraftSound i r d)
    (js : List JobSpec) :
    (settleJobs key r left js d).Keeps (Allowed key) (fun i' d' => DraftSound i' r d') i := by
  induction js generalizing i d with
  | nil => exact hd
  | cons j js ih =>
    refine (keeps_settleJob hkey hleft hd j).seq fun i₁ d₁ hle hd₁ => ?_
    exact ih (fun c hc => (hleft c hc).mono hle) hd₁

theorem mem_idsNamed {cs : List Condition} {id : String} :
    id ∈ idsNamed cs ↔ ∃ c ∈ cs, c.jobId = id ∧ id ≠ "" := by
  simp only [idsNamed, List.mem_filter, List.mem_map, bne_iff_ne]
  constructor
  · rintro ⟨⟨c, hc, rfl⟩, hne⟩
    exact ⟨c, hc, rfl, hne⟩
  · rintro ⟨c, hc, rfl, hne⟩
    exact ⟨⟨c, hc, rfl⟩, hne⟩

/-- The conditions of a draft have ids of their own. -/
theorem DraftSound.distinct_ids {r : Resource} {d : Draft} (h : DraftSound i r d) :
    i.Distinct (idsNamed d.conditions) := by
  intro id hid
  obtain ⟨c, hc, rfl, hne⟩ := mem_idsNamed.1 hid
  have hissued := (h.conditions c hc).issued hne
  refine ⟨hissued ▸ Option.some_ne_none _, fun id' hid' heq => ?_⟩
  obtain ⟨c', hc', rfl, hne'⟩ := mem_idsNamed.1 hid'
  rw [(h.conditions c' hc').issued hne', hissued] at heq
  have hname : c'.name = c.name := (Prod.mk.inj (Option.some.inj heq)).2
  rw [eq_of_nodup h.distinct hc' hc hname]

theorem keeps_writeStatus {r : Resource} {s : Status} (hs : s.Sound i key) :
    (writeStatus key r s).Keeps (Allowed key) (fun _ _ => True) i := by
  refine (Procedure.keeps_ask ⟨hs, rfl⟩).seq fun i₁ reply _ _ => ?_
  cases reply with
  | ok u => trivial
  | error e => trivial

/-- When nothing of the whole has changed, the adopted target is the declared one. -/
theorem target_of_globalChange {s : Status} {spec : Spec} (h : s.globalChange spec = false) :
    s.target = some spec.target := by
  simp only [Status.globalChange] at h
  split at h
  · exact absurd h (by simp)
  · rename_i t ht
    simp only [Bool.or_eq_false_iff, bne_eq_false_iff_eq] at h
    rw [ht, h.1]

theorem keeps_divide {r : Resource} {s : Status} (hkey : r.key = key) (hs : s.Sound i key) :
    (divide key r.spec s).Keeps (Allowed key)
      (fun i' p => (p.1.map Condition.name).Nodup ∧
        (∀ c ∈ p.1, c.Sound i' r.key (some r.spec.target)) ∧ ReusableSound i' r.key p.2) i := by
  unfold divide
  split
  · refine (Procedure.keeps_ask ⟨trivial, rfl⟩).seq fun i₁ _ _ _ => ?_
    exact ⟨List.nodup_nil, fun _ h => absurd h List.not_mem_nil, reusableSound_nil i₁ r.key⟩
  · rename_i hglobal
    have htarget := target_of_globalChange (Bool.not_eq_true _ ▸ hglobal)
    have hcs := hs.conditions
    rw [htarget] at hcs
    refine (keeps_sift hcs).weaken (fun _ _ h => h) fun i₁ p hle hp => ?_
    refine ⟨hs.distinct.sublist (hp.1.map _), fun c hc => ?_, hkey ▸ hp.2⟩
    rw [hkey]
    exact (hcs c (hp.1.subset hc)).mono hle

theorem sound_adopt {r : Resource} {s : Status} {d : Draft} (hkey : r.key = key)
    (hd : DraftSound i r d) : (adopt r.spec s d.conditions).Sound i key := by
  unfold adopt
  split
  · exact ⟨hd.distinct, fun c hc => hkey ▸ hd.conditions c hc⟩
  · rename_i hglobal
    refine ⟨hd.distinct, fun c hc => ?_⟩
    simp only [target_of_globalChange (Bool.not_eq_true _ ▸ hglobal)]
    exact hkey ▸ hd.conditions c hc

theorem keeps_settleResource {r : Resource} (hr : r.Sound i key) :
    (settleResource key r).Keeps (Allowed key) (fun _ _ => True) i := by
  unfold settleResource
  refine (keeps_complain r).seq fun i₁ _ hle₁ _ => ?_
  refine (keeps_divide hr.filed (hr.mono hle₁).status_getD).seq fun i₂ p hle₂ hp => ?_
  obtain ⟨left, reusable⟩ := p
  obtain ⟨hdistinct, hleft, hreusable⟩ := hp
  refine (keeps_settleJobs hr.filed hleft ⟨hdistinct, hleft, hreusable⟩ _).seq
    fun i₃ d hle₃ hd => ?_
  refine (Procedure.keeps_ask ⟨hd.distinct_ids, rfl⟩).seq fun i₄ _ hle₄ _ => ?_
  split
  · exact keeps_writeStatus (sound_adopt hr.filed (hd.mono hle₄))
  · trivial

end Reconcile

/-- A reconcile makes nothing unsound and leaves the jobs of all other resources alone. -/
theorem keeps_reconcile (key : OwnerKey) (i : Issued) :
    (reconcile key).Keeps (Reconcile.Allowed key) (fun _ _ => True) i := by
  refine Procedure.Keeps.seq (Procedure.keeps_ask ⟨trivial, trivial⟩) fun i₁ reply _ hreply => ?_
  match reply with
  | .error e => trivial
  | .ok none =>
    refine (Procedure.keeps_ask ⟨trivial, trivial⟩).seq fun i₂ _ _ _ => ?_
    exact (Procedure.keeps_ask ⟨trivial, trivial⟩).seq fun _ _ _ _ => trivial
  | .ok (some r) => exact Reconcile.keeps_settleResource (hreply r rfl)

theorem sound_reconcile (key : OwnerKey) (i : Issued) : (reconcile key).Sound i :=
  (keeps_reconcile key i).weaken (fun _ _ h => h.1) fun _ _ _ _ => trivial

end CronScale
