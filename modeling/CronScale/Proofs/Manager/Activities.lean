import CronScale.Proofs.Manager.Sound
/-!
# The manager's procedures are sound

Passes that collect lost jobs, recordings of outcomes, what the watch for deletions does, and
reconciles ask for nothing that could make anything unsound. A reconcile moreover leaves the jobs of
all other resources alone.
-/

namespace CronScale

open CronScale.Calendar

/-! ### Collecting lost jobs -/

namespace Sweep

variable {i : Issued}

/-- Whether the jobs to be run once more are sound. -/
def Sound (s : Sweep) (i : Issued) : Prop := ∀ r ∈ s.reruns, r.2.Sound i

theorem Sound.mono {s : Sweep} {i' : Issued} (h : s.Sound i) (hle : i.Le i') : s.Sound i' :=
  fun r hr => (h r hr).mono hle

theorem keeps_ownerOf {s : Sweep} (hs : s.Sound i) (owner : OwnerKey) :
    (s.ownerOf owner).Keeps DeskCall.Sound (fun i' p => p.2.Sound i') i := by
  unfold ownerOf
  split
  · exact hs
  · refine (Procedure.keeps_ask trivial).seq fun i' reply hle _ => ?_
    cases reply with
    | ok r => exact hs.mono hle
    | error e => exact hs.mono hle

theorem keeps_expire {s : Sweep} (hs : s.Sound i) (job : Job) :
    (s.expire job).Keeps DeskCall.Sound (fun i' s' => s'.Sound i') i := by
  refine (Procedure.keeps_ask trivial).seq fun i₁ _ hle₁ _ => ?_
  refine (Procedure.keeps_ask trivial).seq fun i₂ _ hle₂ _ => ?_
  exact hs.mono (hle₁.trans hle₂)

theorem keeps_renew {s : Sweep} (hs : s.Sound i) (job : Job) :
    (s.renew job).Keeps DeskCall.Sound (fun i' s' => s'.Sound i') i :=
  (Procedure.keeps_ask trivial).seq fun _ _ hle _ => hs.mono hle

theorem keeps_inspect {s : Sweep} (hs : s.Sound i) (r : Resource) {job : Job}
    (hjob : job.Sound i) :
    (s.inspect r job).Keeps DeskCall.Sound (fun i' s' => s'.Sound i') i := by
  refine (Procedure.keeps_ask trivial).seq fun i₁ reply hle₁ _ => ?_
  cases reply with
  | found => exact hs.mono hle₁
  | notFound => exact keeps_renew (hs.mono hle₁) job
  | outOfDate missed =>
    refine (Procedure.keeps_ask trivial).seq fun i₂ _ hle₂ _ => ?_
    refine keeps_renew (fun r hr => ?_) job
    rcases List.mem_append.1 hr with hr | hr
    · exact (hs r hr).mono (hle₁.trans hle₂)
    · rw [List.mem_singleton.1 hr]
      exact hjob.mono (hle₁.trans hle₂)

theorem keeps_visit {s : Sweep} (hs : s.Sound i) {job : Job} (hjob : job.Sound i) :
    (s.visit job).Keeps DeskCall.Sound (fun i' s' => s'.Sound i') i := by
  refine (keeps_ownerOf hs job.owner).seq fun i₁ p hle₁ hs₁ => ?_
  obtain ⟨owner, s₁⟩ := p
  match owner with
  | none => exact hs₁
  | some none => exact keeps_expire hs₁ job
  | some (some r) => exact keeps_inspect hs₁ r (hjob.mono hle₁)

theorem keeps_visitAll {s : Sweep} (hs : s.Sound i) {jobs : List Job}
    (hjobs : ∀ job ∈ jobs, job.Sound i) :
    (visitAll s jobs).Keeps DeskCall.Sound (fun i' s' => s'.Sound i') i := by
  induction jobs generalizing i s with
  | nil => exact hs
  | cons job jobs ih =>
    obtain ⟨hjob, hjobs⟩ := List.forall_mem_cons.1 hjobs
    refine (keeps_visit hs hjob).seq fun i₁ s₁ hle hs₁ => ?_
    exact ih hs₁ fun job' hjob' => (hjobs job' hjob').mono hle

theorem sound_rerunOrder {s : Sweep} (hs : s.Sound i) : ∀ job ∈ s.rerunOrder, job.Sound i := by
  intro job hjob
  obtain ⟨r, hr, rfl⟩ := List.mem_map.1 hjob
  exact hs r (List.mem_mergeSort.1 hr)

end Sweep

theorem sound_sweep (i : Issued) : sweep.Sound i := by
  refine Procedure.Keeps.seq (Procedure.keeps_ask trivial) fun i₁ jobs _ hjobs => ?_
  have hnone : ({} : Sweep).Sound i₁ := fun _ h => absurd h List.not_mem_nil
  refine (Sweep.keeps_visitAll hnone hjobs).seq fun i₂ s _ hs => ?_
  refine (Procedure.keeps_ask trivial).seq fun i₃ left hle₃ _ => ?_
  refine (Procedure.keeps_ask trivial).seq fun i₄ _ hle₄ _ => ?_
  have hreruns := Sweep.sound_rerunOrder ((hs.mono hle₃).mono hle₄)
  generalize s.rerunOrder = reruns at hreruns ⊢
  cases reruns with
  | nil => trivial
  | cons job jobs => exact (Procedure.keeps_ask hreruns).seq fun _ _ _ _ => trivial

/-! ### Recording outcomes -/

namespace Record

variable {i : Issued}

/-- The texts begin with different letters. -/
theorem executed_ne_failure (a b c d : String) :
    "cron hpa job " ++ a ++ " executed successfully. " ++ b ≠
      "Failed to create cron hpa job " ++ c ++ ",because of " ++ d := by
  intro h
  have hfirst := congrArg (fun s : String => s.toList[0]?) h
  simp [String.toList_append] at hfirst

theorem failed_ne_failure (b c d : String) :
    "cron hpa failed to execute, because of " ++ b ≠
      "Failed to create cron hpa job " ++ c ++ ",because of " ++ d := by
  intro h
  have hfirst := congrArg (fun s : String => s.toList[0]?) h
  simp [String.toList_append] at hfirst

theorem message_ne_buildFailure (name name' : String) (outcome : Except Fault String) (e : Fault) :
    messageOf name outcome ≠ Reconcile.buildFailure name' e := by
  cases outcome with
  | ok m => exact executed_ne_failure name m name' e.message
  | error f => exact failed_ne_failure f.message name' e.message

theorem sound_conditionOf {job : Job} (h : job.Sound i) (outcome : Except Fault String)
    (now : Instant) (t : Option TargetSpec) :
    (conditionOf job outcome now).Sound i job.owner t where
  issued := fun _ => h.issued
  notFailure := fun _ e => message_ne_buildFailure _ _ _ e
  failure := fun hid => absurd hid h.named

theorem sound_merged {s : Status} {owner : OwnerKey} {c : Condition} (hs : s.Sound i owner)
    (hc : c.Sound i owner s.target) : (merged s c).Sound i owner where
  distinct := Condition.nodup_mergeByJob c hs.distinct
  conditions := by
    intro d hd
    rcases Condition.mem_mergeByJob.1 hd with rfl | ⟨hd, _⟩
    · exact hc
    · exact hs.conditions d hd

theorem sound_attempts {owner : OwnerKey} {c : Condition} (event : Event) (n : Nat)
    (last : Option (Resource × Fault)) (hc : ∀ t, c.Sound i owner t) :
    (attempts owner c event n last).Sound i := by
  induction n generalizing i last with
  | zero =>
    cases last with
    | none => trivial
    | some r => exact (Procedure.keeps_ask trivial).sound
  | succ n ih =>
    refine Procedure.Keeps.seq (Procedure.keeps_ask trivial) fun i₁ reply hle₁ hreply => ?_
    match reply with
    | .error e => exact ih last fun t => (hc t).mono hle₁
    | .ok none => trivial
    | .ok (some r) =>
      have hstatus := (hreply r rfl).status_getD
      have hmerged := sound_merged hstatus ((hc (r.status.getD .initial).target).mono hle₁)
      refine Procedure.Keeps.seq (Procedure.keeps_ask hmerged) fun i₂ reply hle₂ _ => ?_
      cases reply with
      | ok u => exact (Procedure.keeps_ask trivial).sound
      | error e =>
        show Procedure.Sound (if e.isMissing then pure () else _) i₂
        split
        · trivial
        · exact ih _ fun t => (hc t).mono (hle₁.trans hle₂)

end Record

theorem sound_record {i : Issued} (settings : ManagerSettings) {job : Job} (h : job.Sound i)
    (outcome : Except Fault String) : (record settings job outcome).Sound i := by
  refine Procedure.Keeps.seq (Procedure.keeps_ask trivial) fun i₁ now hle _ => ?_
  exact Record.sound_attempts _ _ _ fun t => Record.sound_conditionOf (h.mono hle) outcome now t

theorem sound_watchDeletions (i : Issued) (e : WatchEvent) : (watchDeletions e).Sound i := by
  cases e with
  | applied key => trivial
  | deleted key =>
    have hforget : (Desk.forget key).Sound i :=
      Procedure.Keeps.seq (Procedure.keeps_ask trivial) fun _ _ _ _ =>
        (Procedure.keeps_ask trivial).sound
    exact Procedure.Keeps.seq hforget fun _ _ _ _ => trivial
  | restarted keys => exact Procedure.Keeps.seq (sound_sweep i) fun _ _ _ _ => trivial

end CronScale
