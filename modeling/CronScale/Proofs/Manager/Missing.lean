import CronScale.Proofs.Manager.Calls
import CronScale.Proofs.Manager.Invariant
/-!
# Jobs of a missing resource

While a resource is missing, a pass that collects lost jobs takes out the jobs that it finds queued
for it, and the watch for its deletion takes all of them out (`clears_watchDeletions`). Nothing but
a reconcile of the resource puts jobs in for it (`spares_of_begun`, `spares_record`), and a
reconcile that has put one in does not end without writing the status (`accounts_reconcile`).
-/

namespace CronScale

open CronScale.Calendar

namespace DeskCall

/-- Which of some ids are left after a call, if they are ids of jobs of a resource. -/
def Remains (key : OwnerKey) (ids : String → Prop) : (c : DeskCall) → c.Reply → String → Prop
  | .manager (.delete id), _ => fun id' => ids id' ∧ id' ≠ id
  | .manager (.deleteOwnedBy owner), _ => fun id => ids id ∧ owner ≠ key
  | .manager .snapshot, jobs => fun id =>
    ids id ∧ ∃ job ∈ (show List Job from jobs), job.id = id ∧ job.owner = key
  | _, _ => ids

/-- What is answered while a resource is missing. -/
def Misses (key : OwnerKey) : (c : DeskCall) → c.Reply → Prop
  | .store (.fetch k), reply => k = key → reply = .ok none
  | _, _ => True

/-- Whether a call may have put in a job of a resource. -/
def Adds (key : OwnerKey) : (c : DeskCall) → c.Reply → Prop
  | .manager (.createOrUpdate job), reply => job.owner = key ∧ reply ≠ .ok .unchanged
  | _, _ => False

/-- Whether a call writes the status of a resource. -/
def Writes (key : OwnerKey) : DeskCall → Prop
  | .store (.patchStatus k _ _) => k = key
  | _ => False

variable {key : OwnerKey} {ids ids' : String → Prop} {c : DeskCall} {reply : c.Reply} {id : String}

theorem Remains.mono (h : c.Remains key ids' reply id) (hids : ∀ id, ids' id → ids id) :
    c.Remains key ids reply id := by
  cases c with
  | manager mc =>
    cases mc with
    | delete id' => exact ⟨hids id h.1, h.2⟩
    | deleteOwnedBy owner => exact ⟨hids id h.1, h.2⟩
    | snapshot => exact ⟨hids id h.1, h.2⟩
    | _ => exact hids id h
  | _ => exact hids id h

theorem Remains.left (h : c.Remains key ids reply id) : ids id := by
  cases c with
  | manager mc =>
    cases mc with
    | delete id' => exact h.1
    | deleteOwnedBy owner => exact h.1
    | snapshot => exact h.1
    | _ => exact h
  | _ => exact h

end DeskCall

namespace Procedure

variable {α β : Type} {key : OwnerKey} {p : Procedure Desk α} {ids ids' : String → Prop}

/-- Whether a procedure, told that a resource is missing, takes jobs out until what is left of their
ids and its result have a property. -/
def Purges (key : OwnerKey) (post : (String → Prop) → α → Prop) :
    Procedure Desk α → (String → Prop) → Prop
  | .done a, ids => post ids a
  | .ask c next, ids => ∀ reply, c.Misses key reply →
    Purges key post (next reply) (c.Remains key ids reply)

/-- Whether a procedure, told that a resource is missing, takes out all jobs with some ids. -/
abbrev Clears (key : OwnerKey) (p : Procedure Desk α) (ids : String → Prop) : Prop :=
  p.Purges key (fun ids _ => ∀ id, ¬ids id) ids

theorem Purges.seq {f : α → Procedure Desk β} {post : (String → Prop) → α → Prop}
    {post' : (String → Prop) → β → Prop} (h : p.Purges key post ids)
    (hf : ∀ ids' a, post ids' a → (f a).Purges key post' ids') :
    (p >>= f).Purges key post' ids := by
  induction p generalizing ids with
  | done a => exact hf ids a h
  | ask c next ih => exact fun reply hmisses => ih reply (h reply hmisses)

theorem purges_ask {c : DeskCall} {f : c.Reply → Procedure Desk α}
    {post : (String → Prop) → α → Prop}
    (hf : ∀ reply, c.Misses key reply → (f reply).Purges key post (c.Remains key ids reply)) :
    (Desk.ask c >>= f).Purges key post ids :=
  hf

theorem Clears.mono (h : p.Clears key ids) (hids : ∀ id, ids' id → ids id) :
    p.Clears key ids' := by
  induction p generalizing ids ids' with
  | done a => exact fun id hid => h id (hids id hid)
  | ask c next ih =>
    exact fun reply hmisses => ih reply (h reply hmisses) fun _ hid => hid.mono hids

/-- Where there is nothing to take out, nothing will be left. -/
theorem clears_none (p : Procedure Desk α) (h : ∀ id, ¬ids id) : p.Clears key ids := by
  induction p generalizing ids with
  | done a => exact h
  | ask c next ih => exact fun reply _ => ih reply fun id hid => h id hid.left

/-- What follows puts nothing in. -/
theorem Clears.seq {f : α → Procedure Desk β} (h : p.Clears key ids) : (p >>= f).Clears key ids :=
  Purges.seq h fun _ a hnone => clears_none (f a) hnone

/-- Whether a procedure ends well, if it is noted whether it may have put in a job of a resource
since it last wrote the status. -/
def Accounts (key : OwnerKey) (post : Prop → α → Prop) : Procedure Desk α → Prop → Prop
  | .done a, due => post due a
  | .ask c next, due => ∀ reply,
    Accounts key post (next reply) ((due ∨ c.Adds key reply) ∧ ¬c.Writes key)

variable {post : Prop → α → Prop} {due : Prop}

theorem Accounts.seq {f : α → Procedure Desk β} {post' : Prop → β → Prop}
    (h : p.Accounts key post due) (hf : ∀ due' a, post due' a → (f a).Accounts key post' due') :
    (p >>= f).Accounts key post' due := by
  induction p generalizing due with
  | done a => exact hf due a h
  | ask c next ih => exact fun reply => ih reply (h reply)

/-- A procedure that puts nothing in has nothing more to account for than before. -/
theorem Asks.accounts {post : α → Prop} {before : Prop}
    (h : p.Asks (fun c => ∀ reply, ¬c.Adds key reply) post) (hdue : due → before) :
    p.Accounts key (fun due' a => (due' → before) ∧ post a) due := by
  induction p generalizing due with
  | done a => exact ⟨hdue, h⟩
  | ask c next ih =>
    refine fun reply => ih reply (h.2 reply) fun hdue' => ?_
    exact hdue'.1.elim hdue fun hadds => absurd hadds (h.1 reply)

/-- Whether a procedure puts no job of a resource in. -/
def Spares (key : OwnerKey) (p : Procedure Desk α) (i : Issued) : Prop :=
  p.Keeps (fun _ c => ∀ reply, ¬c.Adds key reply) (fun _ _ => True) i

theorem Asks.spares {post : α → Prop} {i : Issued}
    (h : p.Asks (fun c => ∀ reply, ¬c.Adds key reply) post) : p.Spares key i := by
  induction p generalizing i with
  | done a => trivial
  | ask c next ih => exact ⟨h.1, fun i' reply _ _ => ih reply (h.2 reply)⟩

theorem Spares.mono {i i' : Issued} (h : p.Spares key i) (hle : i.Le i') : p.Spares key i' :=
  Keeps.mono h (fun _ hc => hc) (fun _ _ => trivial) hle

theorem Spares.task {i : Issued} (h : p.Spares key i) : (World.task p).Spares key i :=
  Keeps.bind h fun _ _ _ _ => trivial

end Procedure

variable {key : OwnerKey} {i : Issued}

/-! ### Passes that collect lost jobs -/

namespace Sweep

variable {s : Sweep} {ids : String → Prop}

/-- Whether a pass knows of a resource at most that it is missing. -/
def Misses (key : OwnerKey) (s : Sweep) : Prop := ∀ p ∈ s.owners, p.1 = key → p.2 = none

theorem purges_ownerOf (ids : String → Prop) (hs : s.Misses key) (owner : OwnerKey) :
    (s.ownerOf owner).Purges key (fun ids' p => (∀ id, ids' id → ids id) ∧ p.2.Misses key ∧
      (owner = key → p.1 = some none)) ids := by
  unfold ownerOf
  split
  · rename_i known hknown
    refine ⟨fun _ hid => hid, hs, fun howner => ?_⟩
    have hfound := List.find?_some hknown
    simp only [decide_eq_true_eq] at hfound
    exact congrArg some (hs known (List.mem_of_find?_eq_some hknown) (hfound.trans howner))
  · refine Procedure.purges_ask fun reply hmisses => ?_
    cases reply with
    | error e =>
      exact ⟨fun _ hid => hid, hs, fun howner => absurd (hmisses howner) (by simp)⟩
    | ok r =>
      have hmissing : owner = key → r = none := fun howner => Except.ok.inj (hmisses howner)
      refine ⟨fun _ hid => hid, List.forall_mem_cons.2 ⟨hmissing, hs⟩, fun howner => ?_⟩
      exact congrArg some (hmissing howner)

/-- A job of the missing resource is taken out when its turn comes. -/
theorem purges_visit (ids : String → Prop) (hs : s.Misses key) (job : Job) :
    (s.visit job).Purges key (fun ids' s' => s'.Misses key ∧ (∀ id, ids' id → ids id) ∧
      (job.owner = key → ¬ids' job.id)) ids := by
  refine (purges_ownerOf ids hs job.owner).seq fun ids₁ p hp => ?_
  obtain ⟨owner, s₁⟩ := p
  obtain ⟨hids, hs₁, hmissing⟩ := hp
  match owner with
  | none => exact ⟨hs₁, hids, fun howner => absurd (hmissing howner) (by simp)⟩
  | some none =>
    refine Procedure.purges_ask fun _ _ => Procedure.purges_ask fun _ _ => ?_
    exact ⟨hs₁, fun id hid => hids id hid.1, fun _ hid => hid.2 rfl⟩
  | some (some r) =>
    have hother : job.owner ≠ key := fun howner => absurd (hmissing howner) (by simp)
    have hleft : s₁.Misses key ∧ (∀ id, ids₁ id → ids id) ∧ (job.owner = key → ¬ids₁ job.id) :=
      ⟨hs₁, hids, fun howner => absurd howner hother⟩
    refine Procedure.purges_ask fun reply _ => ?_
    cases reply with
    | found => exact hleft
    | notFound => exact Procedure.purges_ask fun _ _ => hleft
    | outOfDate missed =>
      exact Procedure.purges_ask fun _ _ => Procedure.purges_ask fun _ _ => hleft

theorem clears_visitAll (hs : s.Misses key) {jobs : List Job}
    (hids : ∀ id, ids id → ∃ job ∈ jobs, job.id = id ∧ job.owner = key) :
    (visitAll s jobs).Clears key ids := by
  induction jobs generalizing s ids with
  | nil =>
    intro id hid
    obtain ⟨_, hjob, _⟩ := hids id hid
    exact List.not_mem_nil hjob
  | cons job jobs ih =>
    refine (purges_visit ids hs job).seq fun ids₁ s₁ hp => ?_
    obtain ⟨hs₁, hleft, hgone⟩ := hp
    refine ih hs₁ fun id hid => ?_
    obtain ⟨job', hjob', rfl, howner⟩ := hids id (hleft id hid)
    rcases List.mem_cons.1 hjob' with rfl | hjob'
    · exact absurd hid (hgone howner)
    · exact ⟨job', hjob', rfl, howner⟩

end Sweep

/-- A pass that is begun while a resource is missing takes all its jobs out. -/
theorem clears_sweep (ids : String → Prop) : sweep.Clears key ids := by
  refine Procedure.purges_ask fun jobs _ => ?_
  have hnone : ({} : Sweep).Misses key := fun _ h => absurd h List.not_mem_nil
  exact (Sweep.clears_visitAll hnone fun _ hid => hid.2).seq

/-- The news that a resource was deleted, and the news that some may have been. -/
def WatchEvent.Clearing (key : OwnerKey) : WatchEvent → Prop
  | .applied _ => False
  | .deleted k => k = key
  | .restarted _ => True

theorem clears_watchDeletions {e : WatchEvent} (he : e.Clearing key) (ids : String → Prop) :
    (watchDeletions e).Clears key ids := by
  cases e with
  | applied k => exact he.elim
  | deleted k =>
    exact Procedure.purges_ask fun _ _ => Procedure.purges_ask fun _ _ => fun id hid => hid.2 he
  | restarted keys => exact (clears_sweep ids).seq

/-! ### What puts no jobs in -/

theorem DeskCall.Tidying.not_adds {c : DeskCall} (h : c.Tidying) (reply : c.Reply) :
    ¬c.Adds key reply := by
  cases c with
  | manager mc =>
    cases mc with
    | createOrUpdate job => exact h.elim
    | _ => exact fun hadds => hadds
  | _ => exact fun hadds => hadds

theorem spares_sweep (i : Issued) : sweep.Spares key i := by
  have hasks : sweep.Asks (fun c => ∀ reply, ¬c.Adds key reply) fun _ => True :=
    asks_sweep.weaken (fun _ hc => hc.not_adds) fun _ _ => trivial
  exact hasks.spares

theorem spares_watchDeletions (e : WatchEvent) (i : Issued) : (watchDeletions e).Spares key i := by
  have hasks : (watchDeletions e).Asks (fun c => ∀ reply, ¬c.Adds key reply) fun _ => True :=
    (asks_watchDeletions e).weaken (fun _ hc => hc.not_adds) fun _ _ => trivial
  exact hasks.spares

theorem spares_reconcile {other : OwnerKey} (hne : other ≠ key) (i : Issued) :
    (reconcile other).Spares key i := by
  refine (keeps_reconcile other i).weaken (fun i c hc => ?_) fun _ _ _ _ => trivial
  obtain ⟨_, hwithin⟩ := hc
  cases c with
  | manager mc =>
    cases mc with
    | createOrUpdate job => exact fun _ hadds => hne (hwithin.symm.trans hadds.1)
    | _ => exact fun _ hadds => hadds
  | _ => exact fun _ hadds => hadds

/-- What is begun puts no jobs of a resource in, unless it is a reconcile of the resource. -/
theorem spares_of_begun {p : Procedure Desk Unit} (hp : World.Begun p)
    (hother : p ≠ World.task (reconcile key)) (i : Issued) : p.Spares key i := by
  rcases hp with ⟨other, rfl⟩ | rfl | ⟨e, rfl⟩
  · have hne : other ≠ key := fun heq => hother (congrArg (World.task ∘ reconcile) heq)
    exact (spares_reconcile hne i).task
  · exact (spares_sweep i).task
  · exact spares_watchDeletions e i

/-- To record an outcome, only the home of the resources is asked for anything. -/
theorem Record.asks_attempts {owner : OwnerKey} {c : Condition} {test : DeskCall → Prop}
    (hstore : ∀ call, test (.store call)) (event : Event) (n : Nat)
    (last : Option (Resource × Fault)) :
    (attempts owner c event n last).Asks test fun _ => True := by
  induction n generalizing last with
  | zero =>
    cases last with
    | none => trivial
    | some r => exact ⟨hstore _, fun _ => trivial⟩
  | succ n ih =>
    refine ⟨hstore _, fun reply => ?_⟩
    match reply with
    | .error e => exact ih last
    | .ok none => trivial
    | .ok (some r) =>
      refine ⟨hstore _, fun reply => ?_⟩
      cases reply with
      | ok u => exact ⟨hstore _, fun _ => trivial⟩
      | error e =>
        show Procedure.Asks _ _ (if e.isMissing then pure () else _)
        split
        · trivial
        · exact ih _

theorem asks_record {test : DeskCall → Prop} (hclock : test (.manager .clock))
    (hstore : ∀ call, test (.store call)) (settings : ManagerSettings) (job : Job)
    (outcome : Except Fault String) : (record settings job outcome).Asks test fun _ => True :=
  ⟨hclock, fun _ => Record.asks_attempts hstore _ _ _⟩

theorem spares_record (settings : ManagerSettings) (job : Job) (outcome : Except Fault String)
    (i : Issued) : (record settings job outcome).Spares key i :=
  (asks_record (fun _ hadds => hadds) (fun _ _ hadds => hadds) settings job outcome).spares

/-! ### What a reconcile accounts for -/

namespace Reconcile

variable {r : Resource} {d : Draft} {due : Prop}

/-- Whatever is answered to a job that is brought in, unless it was queued already, the draft is
changed. -/
theorem accounts_submit (hd : due → d.changed = true) (j : JobSpec) (job : Job) (now : Instant)
    (wasRetained : Bool) :
    (submit j job now wasRetained d).Accounts key (fun due' d' => due' → d'.changed = true)
      due := by
  intro reply
  cases reply with
  | error e => exact fun _ => rfl
  | ok change =>
    show Procedure.Accounts _ _ (if change = .unchanged ∧ wasRetained then pure d else pure _) _
    split
    · rename_i hsame
      intro hdue
      refine hdue.1.elim hd fun hadds => ?_
      exact absurd (congrArg Except.ok hsame.1) hadds.2
    · exact fun _ => rfl

theorem accounts_settleJob (hd : due → d.changed = true) (left : List Condition) (j : JobSpec) :
    (settleJob key r left j d).Accounts key (fun due' d' => due' → d'.changed = true) due := by
  have hclock : (Desk.ask (.manager .clock)).Asks (fun c => ∀ reply, ¬c.Adds key reply)
      fun _ => True := Procedure.asks_ask fun _ hadds => hadds
  refine (hclock.accounts id).seq fun due₁ now hdue₁ => ?_
  have hd₁ : due₁ → d.changed = true := fun h => hd (hdue₁.1 h)
  split
  · rename_i e _
    show due₁ → (refuse j e now _ d).changed = true
    simp only [refuse]
    split
    · exact hd₁
    · exact fun _ => rfl
  · split
    · unfold settleKept
      split
      · exact fun _ hdue => hdue.1.elim hd₁ False.elim
      · exact accounts_submit hd₁ j _ now true
    · have hchoose : (chooseId key d j.name).Asks (fun c => ∀ reply, ¬c.Adds key reply)
          fun p => TakesId j.name d p.2 :=
        asks_chooseId (fun _ hadds => hadds) fun _ hadds => hadds
      refine (hchoose.accounts id).seq fun due₂ p hp => ?_
      obtain ⟨hdue₂, htaken⟩ := hp
      exact accounts_submit (fun h => htaken.changed.trans (hd₁ (hdue₂ h))) j _ now _

theorem accounts_settleJobs (hd : due → d.changed = true) (left : List Condition)
    (js : List JobSpec) :
    (settleJobs key r left js d).Accounts key (fun due' d' => due' → d'.changed = true) due := by
  induction js generalizing d due with
  | nil => exact hd
  | cons j js ih => exact (accounts_settleJob hd left j).seq fun due' d' hd' => ih hd'

/-- A changed draft is written in the end. -/
theorem accounts_settleResource (hdue : ¬due) (r : Resource) :
    (settleResource key r).Accounts key (fun due' _ => ¬due') due := by
  have hcomplain : (complain key r).Asks (fun c => ∀ reply, ¬c.Adds key reply) fun _ => True :=
    asks_complain (fun _ hadds => hadds) fun _ _ hadds => hadds
  refine (hcomplain.accounts hdue).seq fun due₁ _ hdue₁ => ?_
  have hdivide : (divide key r.spec (r.status.getD .initial)).Asks
      (fun c => ∀ reply, ¬c.Adds key reply) fun _ => True :=
    (asks_divide (fun _ _ _ hadds => hadds) (fun _ hadds => hadds) _).weaken (fun _ hc => hc)
      fun _ _ => trivial
  refine (hdivide.accounts hdue₁.1).seq fun due₂ p hdue₂ => ?_
  obtain ⟨left, reusable⟩ := p
  refine (accounts_settleJobs (fun h => (hdue₂.1 h).elim) left r.spec.jobs).seq
    fun due₃ d hd => ?_
  have hretain : (Desk.ask (.manager (.retainOwned key (idsNamed d.conditions)))).Asks
      (fun c => ∀ reply, ¬c.Adds key reply) fun _ => True :=
    Procedure.asks_ask fun _ hadds => hadds
  refine (hretain.accounts id).seq fun due₄ _ hdue₄ => ?_
  split
  · intro reply
    cases reply with
    | ok u => exact fun hdue => hdue.2 rfl
    | error e => exact fun hdue => hdue.2 rfl
  · rename_i hchanged
    exact fun hdue => hchanged (hd (hdue₄.1 hdue))

end Reconcile

/-- A reconcile that has put a job in does not end without writing the status. -/
theorem accounts_reconcile (key : OwnerKey) :
    (reconcile key).Accounts key (fun due _ => ¬due) False := by
  have hfetch : (Desk.ask (.store (.fetch key))).Asks (fun c => ∀ reply, ¬c.Adds key reply)
      fun _ => True := Procedure.asks_ask fun _ hadds => hadds
  refine (hfetch.accounts id).seq fun due₁ reply hdue₁ => ?_
  match reply with
  | .error e => exact hdue₁.1
  | .ok none => exact fun _ _ hdue => hdue.1.elim (fun h => h.1.elim hdue₁.1 id) id
  | .ok (some r) => exact Reconcile.accounts_settleResource hdue₁.1 r

/-! ### The ids of the queued jobs -/

theorem Manager.unchanged_of_createOrUpdate {m : Manager} {now : Instant} {job : Job}
    (h : (m.createOrUpdate now job).1 = .ok .unchanged) : (m.createOrUpdate now job).2 = m := by
  have hentered : ∀ change, change ≠ .unchanged → (m.enter now job change).1 ≠ .ok .unchanged := by
    intro change hchange hok
    rcases m.enter_eq now job change with ⟨e, _, heq⟩ | ⟨engine, _, heq⟩
    · rw [heq] at hok
      exact absurd hok (by simp)
    · rw [heq] at hok
      exact hchange (Except.ok.inj hok)
  unfold createOrUpdate at h ⊢
  split at h
  · exact absurd h (hentered _ (by decide))
  · split at h
    · exact absurd h (hentered _ (by decide))
    · rename_i hsame
      simp only [hsame]
      rfl

namespace World

variable {w w' : World} {c : DeskCall} {reply : c.Reply}

/-- Whether a job of a resource is queued under an id. -/
def Holds (w : World) (key : OwnerKey) (id : String) : Prop :=
  ∃ job, w.manager.queue.get? id = some job ∧ job.owner = key

/-- A call that puts no job of a resource in leaves no more ids of its jobs than it should. -/
theorem holds_of_answers (hw : w.manager.Lockstep) (hadds : ¬c.Adds key reply)
    (hanswer : w.Answers c reply w') {id : String} (h : w'.Holds key id) :
    c.Remains key (w.Holds key) reply id := by
  obtain ⟨job, hjob, howner⟩ := h
  have hother : (∀ mc, c ≠ .manager mc) → w.Holds key id := fun hmanager =>
    ⟨job, manager_of_answers hanswer hmanager ▸ hjob, howner⟩
  cases c with
  | manager mc =>
    obtain ⟨now, rfl, rfl⟩ := hanswer
    rcases Manager.queued_answer hjob with hqueued | rfl
    · have hholds : w.Holds key id := ⟨job, hqueued, howner⟩
      cases mc with
      | delete id' =>
        refine ⟨hholds, fun heq => ?_⟩
        have hnone := (w.manager.get?_drop id' id).trans (if_pos heq)
        exact absurd (hnone.symm.trans hjob) (Option.some_ne_none job).symm
      | deleteOwnedBy owner =>
        refine ⟨hholds, fun heq => ?_⟩
        have hmem : id ∈ w.manager.idsOf owner (fun _ => true) :=
          (Manager.mem_idsOf hw.keyed).2 ⟨job, hqueued, howner.trans heq.symm, rfl⟩
        have hnone := (w.manager.get?_dropAll _ id).trans (if_pos hmem)
        exact absurd (hnone.symm.trans hjob) (Option.some_ne_none job).symm
      | snapshot =>
        exact ⟨hholds, job, Table.mem_values.2 ⟨id, hqueued⟩, hw.keyed id job hqueued, howner⟩
      | _ => exact hholds
    · have hunchanged : (w.manager.createOrUpdate now job).1 = .ok .unchanged :=
        Classical.byContradiction fun hne => hadds ⟨howner, hne⟩
      have hsame := Manager.unchanged_of_createOrUpdate hunchanged
      exact ⟨job, hsame ▸ hjob, howner⟩
  | _ => exact hother (by simp)

/-- A call neither makes a resource nor takes one away, and leaves its specification. -/
theorem stored_of_answers (hanswer : w.Answers c reply w') :
    (w'.resources key = none ↔ w.resources key = none) ∧ ∀ r', w'.resources key = some r' →
      ∃ r, w.resources key = some r ∧ r.spec = r'.spec := by
  have hsame : w'.resources key = w.resources key → (w'.resources key = none ↔
      w.resources key = none) ∧ ∀ r', w'.resources key = some r' →
        ∃ r, w.resources key = some r ∧ r.spec = r'.spec :=
    fun heq => ⟨by rw [heq], fun r' hr' => ⟨r', heq ▸ hr', rfl⟩⟩
  by_cases hpatch : ∃ s version, c = .store (.patchStatus key s version)
  · obtain ⟨s, version, rfl⟩ := hpatch
    have hwritten : w.Patched key s version w' → (w'.resources key = none ↔
        w.resources key = none) ∧ ∀ r', w'.resources key = some r' →
          ∃ r, w.resources key = some r ∧ r.spec = r'.spec := by
      intro hpatched
      obtain ⟨r, r', hr, hr', hspec, _⟩ := hpatched.resource
      rw [hr, hr']
      refine ⟨iff_of_false (Option.some_ne_none r') (Option.some_ne_none r), fun r'' hr'' => ?_⟩
      exact ⟨r, rfl, hspec.symm.trans (congrArg Resource.spec (Option.some.inj hr''))⟩
    rcases hanswer with ⟨_, h⟩ | ⟨_, _, ⟨rfl, _⟩ | ⟨_, h⟩⟩
    · exact hwritten h
    · exact hsame rfl
    · exact hwritten h
  · exact hsame (resources_of_answers hanswer fun s version heq => hpatch ⟨s, version, heq⟩)

end World

end CronScale
