import CronScale.Manager.Controller
import CronScale.Manager.Record
/-!
# What the manager's procedures may ask for

Whatever a procedure is answered, there are calls that it never makes: passes that collect lost jobs
and the watch for deletions write no status, and a reconcile writes none but that of its resource,
with conditions that it found in its copy or that say of a declared job that it was submitted or
has failed.
-/

namespace CronScale

open CronScale.Calendar

namespace Procedure

variable {α β : Type}

/-- Whether every call of a procedure and its result pass a test, whatever is answered. -/
def Asks (test : DeskCall → Prop) (post : α → Prop) : Procedure Desk α → Prop
  | .done a => post a
  | .ask c next => test c ∧ ∀ reply, Asks test post (next reply)

/-- Whether a procedure makes a call if it is answered accordingly. -/
def MayAsk (call : DeskCall) : Procedure Desk α → Prop
  | .done _ => False
  | .ask c next => c = call ∨ ∃ reply, MayAsk call (next reply)

variable {test : DeskCall → Prop} {post : α → Prop} {p : Procedure Desk α}

theorem Asks.weaken {test' : DeskCall → Prop} {post' : α → Prop} (h : p.Asks test post)
    (htest : ∀ c, test c → test' c) (hpost : ∀ a, post a → post' a) : p.Asks test' post' := by
  induction p with
  | done a => exact hpost a h
  | ask c next ih => exact ⟨htest c h.1, fun reply => ih reply (h.2 reply)⟩

theorem Asks.bind {f : α → Procedure Desk β} {post' : β → Prop} (h : p.Asks test post)
    (hf : ∀ a, post a → (f a).Asks test post') : (p.bind f).Asks test post' := by
  induction p with
  | done a => exact hf a h
  | ask c next ih => exact ⟨h.1, fun reply => ih reply (h.2 reply)⟩

/-- `Asks.bind` for sequences written in the notation of monads. -/
theorem Asks.seq {f : α → Procedure Desk β} {post' : β → Prop} (h : p.Asks test post)
    (hf : ∀ a, post a → (f a).Asks test post') : (p >>= f).Asks test post' :=
  h.bind hf

theorem asks_pure {a : α} (h : post a) : (pure a : Procedure Desk α).Asks test post := h

theorem asks_ask {c : DeskCall} (h : test c) : (Desk.ask c).Asks test fun _ => True :=
  ⟨h, fun _ => trivial⟩

theorem Asks.of_mayAsk {c : DeskCall} (h : p.Asks test post) (hc : p.MayAsk c) : test c := by
  induction p with
  | done a => exact hc.elim
  | ask c' next ih =>
    rcases hc with rfl | ⟨reply, hc⟩
    · exact h.1
    · exact ih reply (h.2 reply) hc

end Procedure

namespace DeskCall

/-- Whether a call writes no status. -/
def Harmless : DeskCall → Prop
  | .store (.patchStatus _ _ _) => False
  | _ => True

/-- What passes that collect lost jobs and the watch for deletions ask for. -/
def Tidying : DeskCall → Prop
  | .store (.patchStatus _ _ _) => False
  | .manager (.createOrUpdate _) => False
  | .manager (.retainOwned _ _) => False
  | .manager (.note _ _) => False
  | .freshId _ _ => False
  | .startSweep => False
  | _ => True

/-- Whether a call drops no job by its id but those with given ids. -/
def Drops (ids : List String) : DeskCall → Prop
  | .manager (.delete id) => id ∈ ids
  | _ => True

/-- What a pass asks for that knows of jobs with given ids only. -/
def TidyingOnly (ids : List String) (c : DeskCall) : Prop := c.Tidying ∧ c.Drops ids

theorem Tidying.harmless {c : DeskCall} (h : c.Tidying) : c.Harmless := by
  cases c with
  | store c => cases c <;> exact h
  | _ => trivial

end DeskCall

namespace Reconcile

variable {key : OwnerKey}

/-- Whether a condition is one of the last status of a resource, or says of a declared job that it
was submitted or has failed. -/
def Stems (r : Resource) (c : Condition) : Prop :=
  c ∈ (r.status.getD .initial).conditions ∨
    ∃ j ∈ r.spec.jobs, ∃ id state now message, c = conditionOf j id state now message ∧
      (state = .submitted ∨ state = .failed)

/-- What a reconcile that works on a copy of a resource asks for. -/
def Working (key : OwnerKey) (r : Resource) : DeskCall → Prop
  | .manager (.note owner complaint) => owner = key ∧ complaint = r.spec.complaintText
  | .manager (.dropComplaint _) => False
  | .store (.fetch _) => False
  | .store (.patchStatus k s version) => k = key ∧ version = r.metadata.resourceVersion ∧
    ∃ cs, s = adopt r.spec (r.status.getD .initial) cs ∧ ∀ c ∈ cs, Stems r c
  | _ => True

variable {r : Resource}

theorem asks_complain {test : DeskCall → Prop}
    (hnote : test (.manager (.note key r.spec.complaintText)))
    (hpublish : ∀ e, test (.store (.publish r e))) :
    (complain key r).Asks test fun _ => True := by
  refine (Procedure.asks_ask hnote).seq fun new _ => ?_
  cases new with
  | false => trivial
  | true =>
    cases r.spec.complaintText with
    | none => trivial
    | some text => exact Procedure.asks_ask (hpublish _)

theorem asks_dropJob {test : DeskCall → Prop} {c : Condition}
    (hdelete : test (.manager (.delete c.jobId))) : (dropJob c).Asks test fun _ => True := by
  unfold dropJob
  split
  · trivial
  · exact (Procedure.asks_ask hdelete).seq fun _ _ => trivial

/-- Whether a draft differs from another one at most in the ids that are put by under a name. -/
structure TakesId (name : String) (d d' : Draft) : Prop where
  conditions : d'.conditions = d.conditions
  changed : d'.changed = d.changed
  reusable : ∀ name', name' ≠ name → reusableId d'.reusable name' = reusableId d.reusable name'

theorem takesId_refl (name : String) (d : Draft) : TakesId name d d := ⟨rfl, rfl, fun _ _ => rfl⟩

theorem takesId_filter (name : String) (d : Draft) :
    TakesId name d { d with reusable := d.reusable.filter (·.1 != name) } := by
  refine ⟨rfl, rfl, fun name' hne => ?_⟩
  have hsame : ∀ p : String × String, (p.1 == name' && p.1 != name) = (p.1 == name') := by
    intro p
    by_cases hp : p.1 = name'
    · simp [hp, hne]
    · simp [hp]
  simp only [reusableId, List.filter_filter, hsame]

theorem asks_chooseId {test : DeskCall → Prop} {d : Draft} {name : String}
    (hqueued : test (.manager (.queuedId key name))) (hfresh : test (.freshId key name)) :
    (chooseId key d name).Asks test fun p => TakesId name d p.2 := by
  unfold chooseId
  split
  · exact takesId_filter name d
  · refine (Procedure.asks_ask hqueued).seq fun reply _ => ?_
    cases reply with
    | some id => exact takesId_refl name d
    | none => exact (Procedure.asks_ask hfresh).seq fun _ _ => takesId_refl name d

/-- Whether a condition is retained: its job is declared as before. -/
def retains (spec : Spec) (c : Condition) : Bool :=
  (spec.jobs.find? (·.name == c.name)).any (unchanged c)

/-- The conditions that are retained from a status. -/
def retained (spec : Spec) (s : Status) : List Condition :=
  if s.globalChange spec then [] else s.conditions.filter (retains spec)

/-- Whether a job that has an id by its condition is declared differently now. -/
def redeclares (spec : Spec) (c : Condition) : Bool :=
  (spec.jobs.find? (·.name == c.name)).any (!unchanged c ·) && c.jobId != ""

/-- The names and ids of the jobs of a status that are declared differently now. -/
def putBy (spec : Spec) (s : Status) : List (String × String) :=
  if s.globalChange spec then []
  else (s.conditions.filter (redeclares spec)).map fun c => (c.name, c.jobId)

theorem retained_sublist (spec : Spec) (s : Status) :
    (retained spec s).Sublist s.conditions := by
  unfold retained
  split
  · exact List.nil_sublist _
  · exact List.filter_sublist

theorem asks_sift {test : DeskCall → Prop} {cs : List Condition}
    (hdelete : ∀ c ∈ cs, test (.manager (.delete c.jobId))) (spec : Spec) :
    (sift spec cs).Asks test fun p => p = (cs.filter (retains spec),
      (cs.filter (redeclares spec)).map fun c => (c.name, c.jobId)) := by
  induction cs with
  | nil => rfl
  | cons c cs ih =>
    obtain ⟨hc, hcs⟩ := List.forall_mem_cons.1 hdelete
    have ih := ih hcs
    unfold sift
    split
    · rename_i j hfind
      split
      · rename_i hunchanged
        refine ih.seq fun p hp => Procedure.asks_pure ?_
        simp [hp, retains, redeclares, hfind, hunchanged]
      · rename_i hchanged
        refine (asks_dropJob hc).seq fun _ _ => ih.seq fun p hp => Procedure.asks_pure ?_
        by_cases hid : c.jobId = ""
        · simp [hp, retains, redeclares, hfind, hchanged, hid]
        · simp [hp, retains, redeclares, hfind, hchanged, hid]
    · rename_i hfind
      refine (asks_dropJob hc).seq fun _ _ => ih.weaken (fun _ h => h) fun p hp => ?_
      simp [hp, retains, redeclares, hfind]

theorem asks_divide {test : DeskCall → Prop} {s : Status}
    (hdelete : ∀ c ∈ s.conditions, test (.manager (.delete c.jobId)))
    (hdeleteAll : test (.manager (.deleteOwnedBy key))) (spec : Spec) :
    (divide key spec s).Asks test fun p => p = (retained spec s, putBy spec s) := by
  unfold divide retained putBy
  split
  · exact (Procedure.asks_ask hdeleteAll).seq fun _ _ => rfl
  · exact asks_sift hdelete spec

/-- Whether all conditions of a draft stem from a copy of a resource. -/
def DraftStems (r : Resource) (d : Draft) : Prop := ∀ c ∈ d.conditions, Stems r c

theorem DraftStems.put {d : Draft} {j : JobSpec} {state : JobState} (hd : DraftStems r d)
    (hj : j ∈ r.spec.jobs) (hstate : state = .submitted ∨ state = .failed) (id : String)
    (now : Instant) (message : String) :
    DraftStems r (d.put (conditionOf j id state now message)) := by
  intro c hc
  rcases Condition.mem_mergeByName hc with rfl | hc
  · exact .inr ⟨j, hj, id, state, now, message, rfl, hstate⟩
  · exact hd c hc

theorem asks_submit {j : JobSpec} {d : Draft} (hj : j ∈ r.spec.jobs) (hd : DraftStems r d)
    (job : Job) (now : Instant) (wasRetained : Bool) :
    (submit j job now wasRetained d).Asks (Working key r) (DraftStems r) := by
  refine (Procedure.asks_ask trivial).seq fun reply _ => ?_
  cases reply with
  | ok change =>
    show Procedure.Asks _ _ (if change = .unchanged ∧ wasRetained then pure d else pure _)
    split
    · exact hd
    · exact hd.put hj (.inl rfl) _ _ _
  | error e => exact hd.put hj (.inr rfl) _ _ _

theorem asks_settleJob {j : JobSpec} {d : Draft} (hj : j ∈ r.spec.jobs) (hd : DraftStems r d)
    (left : List Condition) :
    (settleJob key r left j d).Asks (Working key r) (DraftStems r) := by
  refine (Procedure.asks_ask trivial).seq fun now _ => ?_
  split
  · unfold refuse
    simp only
    split
    · exact hd
    · exact hd.put hj (.inr rfl) _ _ _
  · rename_i job _
    split
    · rename_i kept _
      unfold settleKept
      split
      · exact (Procedure.asks_ask trivial).seq fun _ _ => hd
      · exact asks_submit hj hd _ now true
    · refine (asks_chooseId trivial trivial).seq fun p hp => ?_
      have hp : DraftStems r p.2 := fun c hc => hd c (hp.conditions ▸ hc)
      exact asks_submit hj hp _ now _

theorem asks_settleJobs {js : List JobSpec} {d : Draft} (hjs : ∀ j ∈ js, j ∈ r.spec.jobs)
    (hd : DraftStems r d) (left : List Condition) :
    (settleJobs key r left js d).Asks (Working key r) (DraftStems r) := by
  induction js generalizing d with
  | nil => exact hd
  | cons j js ih =>
    obtain ⟨hj, hjs⟩ := List.forall_mem_cons.1 hjs
    exact (asks_settleJob hj hd left).seq fun d' hd' => ih hjs hd'

theorem asks_settleResource (key : OwnerKey) (r : Resource) :
    (settleResource key r).Asks (Working key r) fun _ => True := by
  refine (asks_complain ⟨rfl, rfl⟩ fun _ => trivial).seq fun _ _ => ?_
  refine (asks_divide (fun _ _ => trivial) trivial r.spec).seq fun p hp => ?_
  subst hp
  have hleft : ∀ reusable changed, DraftStems r ⟨retained r.spec _, reusable, changed⟩ :=
    fun _ _ c hc => .inl ((retained_sublist r.spec _).subset hc)
  refine (asks_settleJobs (fun _ hj => hj) (hleft _ _) _).seq fun d hd => ?_
  refine (Procedure.asks_ask trivial).seq fun _ _ => ?_
  split
  · refine (Procedure.asks_ask ⟨rfl, rfl, d.conditions, rfl, hd⟩).seq fun reply _ => ?_
    cases reply with
    | ok u => trivial
    | error e => trivial
  · trivial

end Reconcile

namespace Sweep

variable {ids : List String}

theorem asks_ownerOf (s : Sweep) (owner : OwnerKey) :
    (s.ownerOf owner).Asks (DeskCall.TidyingOnly ids) fun _ => True := by
  unfold ownerOf
  split
  · trivial
  · refine (Procedure.asks_ask ⟨trivial, trivial⟩).seq fun reply _ => ?_
    cases reply with
    | ok r => trivial
    | error e => trivial

theorem asks_renew (s : Sweep) (job : Job) :
    (s.renew job).Asks (DeskCall.TidyingOnly ids) fun _ => True :=
  (Procedure.asks_ask ⟨trivial, trivial⟩).seq fun _ _ => trivial

theorem asks_visit (s : Sweep) {job : Job} (hjob : job.id ∈ ids) :
    (s.visit job).Asks (DeskCall.TidyingOnly ids) fun _ => True := by
  refine (asks_ownerOf s job.owner).seq fun p _ => ?_
  obtain ⟨owner, s⟩ := p
  match owner with
  | none => trivial
  | some none =>
    refine (Procedure.asks_ask ⟨trivial, hjob⟩).seq fun _ _ => ?_
    exact (Procedure.asks_ask ⟨trivial, trivial⟩).seq fun _ _ => trivial
  | some (some r) =>
    refine (Procedure.asks_ask ⟨trivial, trivial⟩).seq fun reply _ => ?_
    cases reply with
    | found => trivial
    | notFound => exact asks_renew s job
    | outOfDate missed =>
      exact (Procedure.asks_ask ⟨trivial, trivial⟩).seq fun _ _ => asks_renew _ job

theorem asks_visitAll (s : Sweep) {jobs : List Job} (hjobs : ∀ job ∈ jobs, job.id ∈ ids) :
    (visitAll s jobs).Asks (DeskCall.TidyingOnly ids) fun _ => True := by
  induction jobs generalizing s with
  | nil => trivial
  | cons job jobs ih =>
    obtain ⟨hjob, hjobs⟩ := List.forall_mem_cons.1 hjobs
    exact (asks_visit s hjob).seq fun s' _ => ih s' hjobs

end Sweep

/-- A pass copies the queue, and then drops no jobs by their ids but those of its copy. -/
theorem asks_sweep_of_copy : ∃ next, sweep = .ask (.manager .snapshot) next ∧
    ∀ jobs : List Job,
      (next jobs).Asks (DeskCall.TidyingOnly (jobs.map Job.id)) fun _ => True := by
  refine ⟨_, rfl, fun jobs => ?_⟩
  refine (Sweep.asks_visitAll {} fun _ hjob => List.mem_map_of_mem hjob).seq fun s _ => ?_
  refine (Procedure.asks_ask ⟨trivial, trivial⟩).seq fun left _ => ?_
  refine (Procedure.asks_ask ⟨trivial, trivial⟩).seq fun _ _ => ?_
  cases s.rerunOrder with
  | nil => trivial
  | cons job jobs => exact (Procedure.asks_ask ⟨trivial, trivial⟩).seq fun _ _ => trivial

theorem asks_sweep : sweep.Asks DeskCall.Tidying fun _ => True := by
  obtain ⟨next, heq, hnext⟩ := asks_sweep_of_copy
  rw [heq]
  exact ⟨trivial, fun jobs => (hnext jobs).weaken (fun _ hc => hc.1) fun _ _ => trivial⟩

theorem asks_watchDeletions (e : WatchEvent) :
    (watchDeletions e).Asks DeskCall.Tidying fun _ => True := by
  cases e with
  | applied key => trivial
  | deleted key =>
    have hforget : (Desk.forget key).Asks DeskCall.Tidying fun _ => True :=
      (Procedure.asks_ask trivial).seq fun _ _ => Procedure.asks_ask trivial
    exact hforget.seq fun _ _ => trivial
  | restarted keys => exact asks_sweep.seq fun _ _ => trivial

end CronScale
