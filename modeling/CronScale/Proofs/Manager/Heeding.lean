import CronScale.Proofs.Manager.Handling
/-!
# What procedures do about a job that stands

A job stands if it is declared, and the status has a condition that names its id and does not end
it. As long as a procedure is told nothing else, it leaves the job and the condition alone: a
reconcile of the resource finds the condition in its copy, retains it, and is told that the job is
queued already; a recording for another job puts no condition in the place of this one; a pass that
collects lost jobs finds that the resource is there. Only what the watch does about a deletion of
the resource is different, and the recording of an outcome under the name of the job.
-/

namespace CronScale

open CronScale.Calendar

namespace Procedure

variable {α β : Type}

/-- Whether everything that a procedure will ask for is allowed, and its result has a property,
whatever ids are given out in the meantime, as long as all that it is told passes a test. -/
def Heeds (told : (c : DeskCall) → c.Reply → Prop) (allowed : Issued → DeskCall → Prop)
    (post : Issued → α → Prop) : Procedure Desk α → Issued → Prop
  | .done a, i => post i a
  | .ask c next, i => allowed i c ∧ ∀ i' reply, i.Le i' → c.Fits i' reply → told c reply →
    Heeds told allowed post (next reply) i'

variable {told : (c : DeskCall) → c.Reply → Prop} {allowed : Issued → DeskCall → Prop}
  {post : Issued → α → Prop} {i i' : Issued} {p : Procedure Desk α}

theorem Heeds.weaken {post' : Issued → α → Prop} (h : p.Heeds told allowed post i)
    (hpost : ∀ i' a, i.Le i' → post i' a → post' i' a) : p.Heeds told allowed post' i := by
  induction p generalizing i with
  | done a => exact hpost i a (.refl i) h
  | ask c next ih =>
    refine ⟨h.1, fun i' reply hle hfits htold => ?_⟩
    have hnext := h.2 i' reply hle hfits htold
    exact ih reply hnext fun i'' a hle' => hpost i'' a (hle.trans hle')

theorem Heeds.bind {f : α → Procedure Desk β} {post' : Issued → β → Prop}
    (h : p.Heeds told allowed post i)
    (hf : ∀ i' a, i.Le i' → post i' a → (f a).Heeds told allowed post' i') :
    (p.bind f).Heeds told allowed post' i := by
  induction p generalizing i with
  | done a => exact hf i a (.refl i) h
  | ask c next ih =>
    refine ⟨h.1, fun i' reply hle hfits htold => ?_⟩
    have hnext := h.2 i' reply hle hfits htold
    exact ih reply hnext fun i'' a hle' => hf i'' a (hle.trans hle')

/-- `Heeds.bind` for sequences written in the notation of monads. -/
theorem Heeds.seq {f : α → Procedure Desk β} {post' : Issued → β → Prop}
    (h : p.Heeds told allowed post i)
    (hf : ∀ i' a, i.Le i' → post i' a → (f a).Heeds told allowed post' i') :
    (p >>= f).Heeds told allowed post' i :=
  h.bind hf

/-- What a procedure keeps whatever it is told, it keeps here. -/
theorem Keeps.heeds {allowed' : Issued → DeskCall → Prop} (h : p.Keeps allowed' post i)
    (hallowed : ∀ i c, allowed' i c → allowed i c) : p.Heeds told allowed post i := by
  induction p generalizing i with
  | done a => exact h
  | ask c next ih =>
    exact ⟨hallowed i c h.1, fun i' reply hle hfits _ => ih reply (h.2 i' reply hle hfits)⟩

theorem Asks.heeds {test : DeskCall → Prop} {post : α → Prop} (h : p.Asks test post)
    (hallowed : ∀ i c, test c → allowed i c) : p.Heeds told allowed (fun _ => post) i := by
  induction p generalizing i with
  | done a => exact h
  | ask c next ih => exact ⟨hallowed i c h.1, fun i' reply _ _ _ => ih reply (h.2 reply)⟩

end Procedure

/-- Whether a job is declared, and a condition names it and does not end it. -/
structure Job.Current (job : Job) (key : OwnerKey) (spec : Spec) (j : JobSpec) (c : Condition) :
    Prop where
  names : (spec.jobs.map JobSpec.name).Nodup
  declared : j ∈ spec.jobs
  named : job.id ≠ ""
  built : ∀ r, r.key = key → r.spec = spec → Job.build r j job.id = .ok job
  condition : c.Names j job.id
  due : (j.isRunOnce && c.state.isTerminal) = false

namespace DeskCall

/-- What is answered as long as a job stands: the resource is there, with the condition of the job,
and the job is queued. -/
def Confirms (key : OwnerKey) (spec : Spec) (j : JobSpec) (job : Job) (c : Condition) :
    (call : DeskCall) → call.Reply → Prop
  | .store (.fetch k), reply => k = key → (∃ e, reply = .error e) ∨
    ∃ r s, reply = .ok (some r) ∧ r.key = key ∧ Reconcile.Copied r s spec j job.id c
  | .manager (.createOrUpdate job'), reply => job' = job → reply = .ok .unchanged
  | _, _ => True

/-- Whether a call leaves a job that stands and its condition alone, if some versions are gone. -/
def Respects (key : OwnerKey) (spec : Spec) (j : JobSpec) (job : Job) (c : Condition)
    (gone : String → Prop) (i : Issued) : DeskCall → Prop
  | .store (.patchStatus k s version) => k = key → (∃ v, version = some v ∧ gone v) ∨
    s.globalChange spec = false ∧ c ∈ s.conditions
  | .manager (.createOrUpdate job') => job'.owner = key → job'.name = j.name → job' = job
  | .manager (.delete id) => i job.id = some (key, j.name) → id ≠ job.id
  | .manager (.deleteOwnedBy owner) => owner ≠ key
  | .manager (.retainOwned owner keep) => owner = key → job.id ∈ keep
  | _ => True

end DeskCall

namespace Procedure

variable {α β : Type}

/-- Whether a procedure leaves a job alone as long as it stands, and its result has a property. -/
def Minds (key : OwnerKey) (spec : Spec) (j : JobSpec) (job : Job) (c : Condition)
    (gone : String → Prop) (post : α → Prop) (p : Procedure Desk α) (i : Issued) : Prop :=
  p.Heeds (DeskCall.Confirms key spec j job c) (DeskCall.Respects key spec j job c gone)
    (fun _ => post) i

variable {key : OwnerKey} {spec : Spec} {j : JobSpec} {job : Job} {c : Condition}
  {gone gone' : String → Prop} {i i' : Issued} {p : Procedure Desk α} {post : α → Prop}

theorem respects_mono {call : DeskCall} (h : call.Respects key spec j job c gone i)
    (hgone : ∀ v, gone v → gone' v) (hissued : i job.id = some (key, j.name)) :
    call.Respects key spec j job c gone' i' := by
  cases call with
  | store call =>
    cases call with
    | patchStatus k s version =>
      exact fun hk => (h hk).imp_left fun ⟨v, hversion, hv⟩ => ⟨v, hversion, hgone v hv⟩
    | _ => exact h
  | manager call =>
    cases call with
    | delete id => exact fun _ => h hissued
    | _ => exact h
  | _ => trivial

theorem Minds.mono (h : p.Minds key spec j job c gone post i) (hgone : ∀ v, gone v → gone' v)
    (hle : i.Le i') (hissued : i job.id = some (key, j.name)) :
    p.Minds key spec j job c gone' post i' := by
  induction p generalizing i i' with
  | done a => exact h
  | ask call next ih =>
    refine ⟨respects_mono h.1 hgone hissued, fun i'' reply hle' hfits htold => ?_⟩
    have hnext := h.2 i'' reply (hle.trans hle') hfits htold
    exact ih reply hnext (.refl _) (hle.trans hle' _ _ hissued)

theorem Minds.seq {f : α → Procedure Desk β} {post' : β → Prop}
    (h : p.Minds key spec j job c gone post i)
    (hf : ∀ i' a, i.Le i' → post a → (f a).Minds key spec j job c gone post' i') :
    (p >>= f).Minds key spec j job c gone post' i :=
  Heeds.seq h hf

theorem Minds.task (h : p.Minds key spec j job c gone post i) :
    (World.task p).Minds key spec j job c gone (fun _ => True) i :=
  Heeds.bind h fun _ _ _ _ => trivial

/-- Calls that are right whatever ids are given out. -/
theorem Minds.of_asks (h : p.Asks (fun call => ∀ i, call.Respects key spec j job c gone i) post) :
    p.Minds key spec j job c gone post i :=
  h.heeds fun i _ hcall => hcall i

/-- A call, and what goes on with a reply that is confirmed. -/
theorem minds_ask {call : DeskCall} {f : call.Reply → Procedure Desk α}
    (hcall : call.Respects key spec j job c gone i)
    (hf : ∀ i' reply, i.Le i' → call.Fits i' reply → call.Confirms key spec j job c reply →
      (f reply).Minds key spec j job c gone post i') :
    (Desk.ask call >>= f).Minds key spec j job c gone post i :=
  ⟨hcall, hf⟩

end Procedure

variable {key : OwnerKey} {spec : Spec} {j : JobSpec} {job : Job} {c : Condition}
  {gone : String → Prop} {i : Issued}

/-! ### Reconciles -/

namespace Reconcile

variable {r : Resource} {s : Status} {left : List Condition}

/-- The turn of a job that stands is to be queued under its id. -/
theorem settleJob_of_current (hjob : job.Current key spec j c) (hkey : r.key = key)
    (hspec : r.spec = spec) (hfind : left.find? (·.name == j.name) = some c) (d : Draft) :
    settleJob key r left j d = Desk.clock >>= fun now => submit j job now true d := by
  have hbuild := build_id (hjob.built r hkey hspec) ""
  have hkept : (some c).filter (·.jobId != "") = some c := by
    rw [Option.filter_some, hjob.condition.jobId, if_pos (bne_iff_ne.2 hjob.named)]
  simp only [settleJob, hbuild, hfind, hkept, settleKept, hjob.due, Bool.false_eq_true, if_false,
    hjob.condition.jobId]

/-- The job is queued as it is declared, so that its turn changes nothing. -/
theorem minds_settleJob (hjob : job.Current key spec j c) (hkey : r.key = key)
    (hspec : r.spec = spec) (hfind : left.find? (·.name == j.name) = some c) (d : Draft)
    (i : Issued) : (settleJob key r left j d).Minds key spec j job c gone (· = d) i := by
  rw [settleJob_of_current hjob hkey hspec hfind]
  refine Procedure.minds_ask trivial fun i₁ now _ _ _ => ?_
  refine Procedure.minds_ask (fun _ _ => rfl) fun i₂ reply _ _ hconfirmed => ?_
  rw [hconfirmed rfl]
  exact rfl

theorem minds_settleJobs {js : List JobSpec} {d : Draft} (hjob : job.Current key spec j c)
    (hkey : r.key = key) (hspec : r.spec = spec)
    (hleft : ∀ c' ∈ left, c'.jobId = job.id → c'.name = j.name)
    (hfind : left.find? (·.name == j.name) = some c) (hjs : ∀ j' ∈ js, j' ∈ spec.jobs)
    (hd : d.conditions.find? (·.name == j.name) = some c) :
    (settleJobs key r left js d).Minds key spec j job c gone
      (fun d' => d'.conditions.find? (·.name == j.name) = some c) i := by
  induction js generalizing d i with
  | nil => exact hd
  | cons j' js ih =>
    obtain ⟨hj', hjs⟩ := List.forall_mem_cons.1 hjs
    have hsettles : (settleJob key r left j' d).Minds key spec j job c gone
        (fun d' => d'.conditions.find? (·.name == j.name) = some c) i := by
      by_cases hname : j'.name = j.name
      · obtain rfl := eq_of_nodup hjob.names hj' hjob.declared hname
        exact Procedure.Heeds.weaken (minds_settleJob hjob hkey hspec hfind d i)
          fun _ d' _ heq => heq ▸ hd
      · have hother :
            (settleJob key r left j' d).Minds key spec j job c gone (Alters j'.name d) i := by
          refine .of_asks (asks_settleJob_alters ?_ ?_ ?_ ?_ ?_)
          · exact fun _ => trivial
          · exact fun _ => trivial
          · exact fun _ => trivial
          · exact fun kept hmem hkept _ _ hid => hname (hkept.symm.trans (hleft kept hmem hid))
          · exact fun job' _ hjob' _ _ heq => absurd (hjob'.symm.trans heq) hname
        exact Procedure.Heeds.weaken hother
          fun _ d' _ halters => (halters.others j.name fun heq => hname heq.symm).trans hd
    exact hsettles.seq fun i₁ d' _ hd' => ih hjs hd'

theorem minds_settleResource (hjob : job.Current key spec j c) (hkey : r.key = key)
    (h : Copied r s spec j job.id c) :
    (settleResource key r).Minds key spec j job c gone (fun _ => True) i := by
  have hstatus : r.status.getD .initial = s := by rw [h.status, Option.getD_some]
  obtain rfl := h.declares
  have hcomplains : (complain key r).Minds key r.spec j job c gone (fun _ => True) i :=
    .of_asks (asks_complain (fun _ => trivial) fun _ _ => trivial)
  refine hcomplains.seq fun i₁ _ _ _ => ?_
  simp only [hstatus, divide, h.adopted, Bool.false_eq_true, if_false]
  have hsifts : (sift r.spec s.conditions).Minds key r.spec j job c gone
      (fun p => p.1.Sublist s.conditions ∧ (c ∈ s.conditions → c ∈ p.1)) i₁ :=
    .of_asks (asks_sift_copied h hjob.names hjob.declared (fun id' hne _ _ => hne) (.refl _))
  refine hsifts.seq fun i₂ p _ hp => ?_
  obtain ⟨left, reusable⟩ := p
  obtain ⟨hleft, hmem⟩ := hp
  have hfind := find?_of_nodup (h.distinct.sublist (hleft.map _)) (hmem h.mem)
  rw [h.names.name] at hfind
  refine (minds_settleJobs hjob hkey rfl (fun c' hc' => h.ids c' (hleft.subset hc')) hfind
    (fun _ hj' => hj') hfind).seq fun i₃ d _ hd => ?_
  obtain ⟨hc, _⟩ := find?_eq_some_name hd
  have hkept : job.id ∈ idsNamed d.conditions :=
    mem_idsNamed.2 ⟨c, hc, h.names.jobId, hjob.named⟩
  refine Procedure.minds_ask (fun _ => hkept) fun i₄ _ _ _ _ => ?_
  split
  · have hwritten : c ∈ (adopt r.spec s d.conditions).conditions := by rwa [conditions_adopt]
    refine Procedure.minds_ask (fun _ => .inr ⟨globalChange_adopt _ _ _, hwritten⟩)
      fun i₅ reply _ _ _ => ?_
    cases reply with
    | ok u => trivial
    | error e => trivial
  · trivial

end Reconcile

theorem respects_of_allowed {other : OwnerKey} (hne : other ≠ key) {call : DeskCall}
    (h : Reconcile.Allowed other i call) : call.Respects key spec j job c gone i := by
  obtain ⟨_, hwithin⟩ := h
  cases call with
  | store call =>
    cases call with
    | patchStatus k s version => exact fun hk => absurd (hwithin.symm.trans hk) hne
    | _ => trivial
  | manager call =>
    cases call with
    | createOrUpdate job' => exact fun hk => absurd (hwithin.symm.trans hk) hne
    | delete id =>
      rintro hissued rfl
      obtain ⟨name, hid⟩ := hwithin
      exact hne (congrArg Prod.fst (Option.some.inj (hid.symm.trans hissued)))
    | deleteOwnedBy owner => exact fun hk => hne (hwithin.symm.trans hk)
    | retainOwned owner keep => exact fun hk => absurd (hwithin.symm.trans hk) hne
    | _ => trivial
  | _ => trivial

/-- A reconcile leaves the job alone, be it of its resource or of another one. -/
theorem minds_reconcile (hjob : job.Current key spec j c) (k : OwnerKey) (i : Issued) :
    (reconcile k).Minds key spec j job c gone (fun _ => True) i := by
  by_cases hk : k = key
  · subst hk
    refine Procedure.minds_ask trivial fun i₁ reply _ _ hconfirmed => ?_
    rcases hconfirmed rfl with ⟨e, rfl⟩ | ⟨r, s, rfl, hkey, hcopied⟩
    · trivial
    · exact Reconcile.minds_settleResource hjob hkey hcopied
  · exact (keeps_reconcile k i).heeds fun i call hallowed => respects_of_allowed hk hallowed

/-! ### Recordings of outcomes -/

/-- The recorded condition takes the place of none but that of its own job. -/
theorem Record.mem_merged {s : Status} {c' : Condition} (hc : c ∈ s.conditions)
    (hid : c.jobId ≠ c'.jobId) (hname : c.name ≠ c'.name) : c ∈ (merged s c').conditions := by
  have hmatches : c'.matchesJob c = false := Condition.matchesJob_eq_false_iff.2 ⟨hid, hname⟩
  exact Condition.mem_mergeByJob.2 (.inr ⟨hc, hmatches⟩)

theorem Record.minds_attempts {owner : OwnerKey} {c' : Condition} (event : Event) (n : Nat)
    (last : Option (Resource × Fault))
    (hother : owner = key → c.jobId ≠ c'.jobId ∧ c.name ≠ c'.name) :
    (attempts owner c' event n last).Minds key spec j job c gone (fun _ => True) i := by
  induction n generalizing i last with
  | zero =>
    cases last with
    | none => trivial
    | some r => exact Procedure.minds_ask trivial fun _ _ _ _ _ => trivial
  | succ n ih =>
    refine Procedure.minds_ask trivial fun i₁ reply _ _ hconfirmed => ?_
    match reply with
    | .error e => exact ih last
    | .ok none => trivial
    | .ok (some r) =>
      have hpatch : DeskCall.Respects key spec j job c gone i₁ (.store (.patchStatus owner
          (merged (r.status.getD .initial) c') r.metadata.resourceVersion)) := by
        intro howner
        rcases hconfirmed howner with ⟨e, he⟩ | ⟨r', s, hr', _, hcopied⟩
        · exact absurd he (by simp)
        · obtain rfl := Option.some.inj (Except.ok.inj hr')
          obtain ⟨hid, hname⟩ := hother howner
          rw [hcopied.status, Option.getD_some]
          exact .inr ⟨hcopied.adopted, mem_merged hcopied.mem hid hname⟩
      refine Procedure.minds_ask hpatch fun i₂ reply _ _ _ => ?_
      cases reply with
      | ok u => exact Procedure.minds_ask trivial fun _ _ _ _ _ => trivial
      | error e =>
        show Procedure.Minds _ _ _ _ _ _ _ (if e.isMissing then pure () else _) i₂
        split
        · trivial
        · exact ih _

/-- The recording of an outcome of a job of another name or another resource leaves the job
alone. -/
theorem minds_record (settings : ManagerSettings) {job' : Job} (outcome : Except Fault String)
    (hjob : job.Current key spec j c) (hissued : i job.id = some (key, j.name))
    (hsound : job'.Sound i) (hother : ¬(job'.owner = key ∧ job'.name = j.name)) :
    (record settings job' outcome).Minds key spec j job c gone (fun _ => True) i := by
  refine Procedure.minds_ask trivial fun i₁ now _ _ _ => ?_
  refine Record.minds_attempts _ _ _ fun howner => ?_
  have hname : job'.name ≠ j.name := fun heq => hother ⟨howner, heq⟩
  refine ⟨fun heq => hname ?_, fun heq => hname ?_⟩
  · have hid : job.id = job'.id := hjob.condition.jobId.symm.trans heq
    have hboth := hsound.issued
    rw [← hid, hissued] at hboth
    exact (congrArg Prod.snd (Option.some.inj hboth)).symm
  · exact heq.symm.trans hjob.condition.name

/-! ### Passes that collect lost jobs -/

namespace Sweep

/-- Whether a pass has not found that a resource is gone. -/
def Finds (key : OwnerKey) (s : Sweep) : Prop := ∀ p ∈ s.owners, p.1 = key → p.2 ≠ none

variable {s : Sweep}

theorem minds_ownerOf (hs : s.Finds key) (owner : OwnerKey) :
    (s.ownerOf owner).Minds key spec j job c gone
      (fun p => p.2.Finds key ∧ (owner = key → p.1 ≠ some none)) i := by
  unfold ownerOf
  split
  · rename_i known hknown
    refine ⟨hs, fun howner hnone => ?_⟩
    have hfound := List.find?_some hknown
    simp only [decide_eq_true_eq] at hfound
    exact hs known (List.mem_of_find?_eq_some hknown) (hfound.trans howner) (Option.some.inj hnone)
  · refine Procedure.minds_ask trivial fun i₁ reply _ _ hconfirmed => ?_
    cases reply with
    | error e => exact ⟨hs, fun _ => (Option.some_ne_none _).symm⟩
    | ok r =>
      have hthere : owner = key → r ≠ none := by
        intro howner hnone
        rcases hconfirmed howner with ⟨e, he⟩ | ⟨r', s', hr', _⟩
        · exact absurd he (by simp)
        · exact Option.some_ne_none r' ((Except.ok.inj hr').symm.trans hnone)
      refine ⟨List.forall_mem_cons.2 ⟨hthere, hs⟩, fun howner hnone => ?_⟩
      exact hthere howner (Option.some.inj hnone)

theorem minds_renew (hs : s.Finds key) (job' : Job) :
    (s.renew job').Minds key spec j job c gone (Finds key) i :=
  Procedure.minds_ask trivial fun _ _ _ _ _ => hs

theorem minds_visit (hs : s.Finds key) {job' : Job} (hsound : job'.Sound i) :
    (s.visit job').Minds key spec j job c gone (Finds key) i := by
  refine (minds_ownerOf hs job'.owner).seq fun i₁ p hle hp => ?_
  obtain ⟨owner, s₁⟩ := p
  obtain ⟨hs₁, hfound⟩ := hp
  match owner with
  | none => exact hs₁
  | some none =>
    have hdelete : DeskCall.Respects key spec j job c gone i₁ (.manager (.delete job'.id)) := by
      intro hissued hid
      have hboth := (hsound.mono hle).issued
      rw [hid, hissued] at hboth
      exact hfound (congrArg Prod.fst (Option.some.inj hboth)).symm rfl
    refine Procedure.minds_ask hdelete fun _ _ _ _ _ => ?_
    exact Procedure.minds_ask trivial fun _ _ _ _ _ => hs₁
  | some (some r) =>
    refine Procedure.minds_ask trivial fun i₂ reply _ _ _ => ?_
    cases reply with
    | found => exact hs₁
    | notFound => exact minds_renew hs₁ job'
    | outOfDate missed =>
      exact Procedure.minds_ask trivial fun _ _ _ _ _ => minds_renew hs₁ job'

theorem minds_visitAll (hs : s.Finds key) {jobs : List Job} (hjobs : ∀ job' ∈ jobs, job'.Sound i) :
    (visitAll s jobs).Minds key spec j job c gone (fun _ => True) i := by
  induction jobs generalizing i s with
  | nil => trivial
  | cons job' jobs ih =>
    obtain ⟨hjob', hjobs⟩ := List.forall_mem_cons.1 hjobs
    refine (minds_visit hs hjob').seq fun i₁ s₁ hle hs₁ => ?_
    exact ih hs₁ fun job'' hjob'' => (hjobs job'' hjob'').mono hle

end Sweep

theorem minds_sweep (i : Issued) : sweep.Minds key spec j job c gone (fun _ => True) i := by
  refine Procedure.minds_ask trivial fun i₁ jobs _ hjobs _ => ?_
  have hnone : ({} : Sweep).Finds key := fun _ h => absurd h List.not_mem_nil
  refine (Sweep.minds_visitAll hnone hjobs).seq fun i₂ s _ _ => ?_
  refine Procedure.minds_ask trivial fun _ left _ _ _ => ?_
  refine Procedure.minds_ask trivial fun i₄ _ _ _ _ => ?_
  cases s.rerunOrder with
  | nil => trivial
  | cons job' jobs => exact Procedure.minds_ask trivial fun _ _ _ _ _ => trivial

/-- The watch for deletions leaves the job alone, unless its resource was deleted. -/
theorem minds_watchDeletions {e : WatchEvent} (he : e ≠ .deleted key) (i : Issued) :
    (watchDeletions e).Minds key spec j job c gone (fun _ => True) i := by
  cases e with
  | applied k => trivial
  | deleted k =>
    have hk : k ≠ key := fun heq => he (congrArg WatchEvent.deleted heq)
    refine Procedure.minds_ask trivial fun _ _ _ _ _ => ?_
    exact Procedure.minds_ask hk fun _ _ _ _ _ => trivial
  | restarted keys => exact (minds_sweep i).seq fun _ _ _ _ => trivial

end CronScale
