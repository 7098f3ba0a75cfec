import CronScale.Proofs.Manager.Attended
import CronScale.Proofs.Manager.Beside
import CronScale.Proofs.Manager.Collecting
import CronScale.Proofs.Manager.Overtaken
import CronScale.Proofs.Manager.Recurring
/-!
# Collecting lost jobs while resources come and go

A pass that collects lost jobs decides by a snapshot of the queue and by copies of resources, while
the controller reconciles a resource, which may be deleted and written again meanwhile. All the
same, the pass queues nothing, schedules anew only what is queued at that moment, and takes no job
out that the controller has queued for the resource as it came into being last
(`Interplay.pass_heeds`).
-/

namespace CronScale

open CronScale.Calendar

namespace DeskCall

/-- Which incarnation of a resource was read last, after a call was answered in the present one. -/
def readAfter (key : OwnerKey) (present : Nat) : (c : DeskCall) → c.Reply → Nat → Nat
  | .store (.fetch k), .ok (some _), read => if k = key then present else read
  | _, _, read => read

/-- The id of the job that a call has queued, or found queued as it should be, for an incarnation of
its resource. -/
def brings : (c : DeskCall) → c.Reply → Nat → List (String × Nat)
  | .manager (.createOrUpdate job), .ok _, n => [(job.id, n)]
  | _, _, _ => []

variable {key : OwnerKey} {c : DeskCall} {present read n m : Nat} {id : String}

theorem readAfter_le (reply : c.Reply) (h : read ≤ present) :
    c.readAfter key present reply read ≤ present := by
  unfold readAfter
  split
  · split
    · exact Nat.le_refl _
    · exact h
  · exact h

theorem Against.readAfter_eq {versions : List String} (h : c.Against key versions)
    (reply : c.Reply) : c.readAfter key present reply read = read := by
  unfold readAfter
  split
  · exact h.elim
  · rfl

theorem of_mem_brings {reply : c.Reply} (h : (id, m) ∈ c.brings reply n) :
    m = n ∧ ∃ job, c = .manager (.createOrUpdate job) ∧ job.id = id := by
  cases c with
  | manager mc =>
    cases mc with
    | createOrUpdate job =>
      cases reply with
      | error e => exact absurd h List.not_mem_nil
      | ok change =>
        obtain ⟨rfl, rfl⟩ := Prod.mk.inj (List.mem_singleton.1 h)
        exact ⟨rfl, job, rfl, rfl⟩
    | _ => exact absurd h List.not_mem_nil
  | _ => exact absurd h List.not_mem_nil

theorem Preliminary.brings_eq (h : c.Preliminary key) (reply : c.Reply) :
    c.brings reply n = [] := by
  unfold brings
  split
  · exact h.elim
  · rfl

end DeskCall

/-- What happens beside the reconciles of a resource without its status being written. -/
def Happening.Apart (key : OwnerKey) : Happening → Prop
  | .call c _ => ¬c.Writes key
  | happening => happening.Elsewhere key

theorem Happening.Apart.elsewhere {key : OwnerKey} {happening : Happening}
    (h : happening.Apart key) : happening.Elsewhere key := by
  cases happening with
  | call c reply => trivial
  | _ => exact h

namespace World

variable {w w' : World} {key : OwnerKey}

/-- Whether a job of a resource is scheduled under an id. -/
def Schedules (w : World) (key : OwnerKey) (id : String) : Prop :=
  ∃ entry, w.manager.engine.agenda.entries.get? id = some entry ∧ entry.job.owner = key

theorem Good.holds_of_schedules (h : w.Good) {id : String} (hid : w.Schedules key id) :
    w.Holds key id := by
  obtain ⟨entry, hentry, howner⟩ := hid
  exact ⟨entry.job, (h.lockstep.entries id entry hentry).1, howner⟩

/-- Whether a resource is left as it is and no job of it is brought in. -/
structure Calm (key : OwnerKey) (w w' : World) : Prop where
  resource : w'.resources key = w.resources key
  holds : ∀ id, w'.Holds key id → w.Holds key id
  issued : w.issued.Le w'.issued
  versions : w.versions key ⊆ w'.versions key

theorem calm_of_apart (h : w.Good) (hspares : ∀ p ∈ w.procedures, p.Spares key w.issued)
    (hapart : Amidst (Happening.Apart key) w w') : Calm key w w' := by
  have helsewhere := hapart.mono fun _ => Happening.Apart.elsewhere
  refine ⟨?_, fun id hid => holds_of_elsewhere h hspares helsewhere hid, (h.step hapart.step).2,
    hapart.step.renews.versions key⟩
  obtain ⟨happening, htest, hhappens⟩ := hapart
  cases hhappens with
  | put r version hfresh => exact if_neg fun heq => htest heq.symm
  | delete k => exact if_neg fun heq => htest heq.symm
  | @call _ w₁ ps qs c next reply hask hanswer =>
    have hkept : w₁.resources key = World.resources { w with procedures := ps ++ qs } key := by
      refine resources_of_answers hanswer ?_
      rintro s version rfl
      exact htest rfl
    exact hkept
  | _ => rfl

section

variable {c : DeskCall} {reply : c.Reply} {i : Issued} {told : Prop} {id : String}

theorem calm_of_collects (h : w.Good) (hsound : c.Sound w.issued) (hc : c.Collects key i told)
    (hanswer : w.Answers c reply w') : Calm key w w' where
  resource := by
    refine resources_of_answers hanswer ?_
    rintro s version rfl
    exact hc
  holds := by
    have hadds : ¬c.Adds key reply := by
      cases c with
      | manager mc =>
        cases mc with
        | createOrUpdate job => exact hc.elim
        | _ => exact id
      | _ => exact id
    exact fun id hid => (holds_of_answers h.lockstep hadds hanswer hid).left
  issued := (h.answers hsound hanswer).2.1
  versions := (renews_of_answers hanswer).versions key

/-- A call of a pass queues nothing. -/
theorem queued_of_collects (hc : c.Collects key i told) (hanswer : w.Answers c reply w') {job : Job}
    (hjob : w'.manager.queue.get? id = some job) : w.manager.queue.get? id = some job := by
  rcases answer_of_answers hanswer with hsame | ⟨mc, now, rfl, heq⟩
  · rwa [hsame] at hjob
  · rw [heq] at hjob
    rcases Manager.queued_answer hjob with hbefore | rfl
    · exact hbefore
    · exact hc.elim

/-- It takes out only the job that it is to take out. -/
theorem delete_of_collects (h : w.Good) (hc : c.Collects key i told)
    (hanswer : w.Answers c reply w') (hbefore : (w.manager.queue.get? id).isSome)
    (hafter : w'.manager.queue.get? id = none) : c = .manager (.delete id) := by
  rcases answer_of_answers hanswer with hsame | ⟨mc, now, rfl, heq⟩
  · rw [hsame] at hafter
    rw [hafter] at hbefore
    exact absurd hbefore (by simp)
  · have hconcerns : w.manager.Concerns id mc := by
      refine Classical.byContradiction fun hnot => ?_
      rw [heq, Manager.get?_answer h.lockstep.keyed hnot now] at hafter
      rw [hafter] at hbefore
      exact absurd hbefore (by simp)
    cases mc with
    | delete id' =>
      obtain rfl : id' = id := hconcerns
      rfl
    | createOrUpdate job => exact hc.elim
    | deleteOwnedBy owner => exact hc.elim
    | retainOwned owner keep => exact hc.elim
    | _ => exact hconcerns.elim

/-- It schedules only the job that it is to schedule anew. -/
theorem scheduled_of_collects (h : w.Good) (hgood : w'.Good) (hc : c.Collects key i told)
    (hanswer : w.Answers c reply w') {entry : Entry Job}
    (hentry : w'.manager.engine.agenda.entries.get? id = some entry) :
    w.manager.engine.agenda.entries.get? id = some entry ∨ c = .manager (.resubmit id) := by
  rcases answer_of_answers hanswer with hsame | ⟨mc, now, rfl, heq⟩
  · exact .inl (hsame ▸ hentry)
  have hqueued := (hgood.lockstep.entries id entry hentry).1
  rw [heq] at hentry hqueued
  cases mc with
  | note owner complaint =>
    obtain ⟨complaints, hnote⟩ := w.manager.note_eq owner complaint
    rw [Manager.answer, hnote] at hentry
    exact .inl hentry
  | delete id' =>
    have hother : id ≠ id' := by
      rintro rfl
      exact absurd ((w.manager.get?_drop id id).symm.trans hqueued) (by simp)
    exact .inl ((Manager.sameAt_drop hother).2 ▸ hentry)
  | resubmit id' =>
    by_cases hsame : id = id'
    · exact .inr (hsame ▸ rfl)
    · exact .inl ((Manager.sameAt_resubmit h.lockstep.keyed hsame now).2 ▸ hentry)
  | createOrUpdate job => exact hc.elim
  | deleteOwnedBy owner => exact hc.elim
  | retainOwned owner keep => exact hc.elim
  | _ => exact .inl hentry

/-- After a call a job of a resource is queued only if it was before or the call has queued it. -/
theorem holds_or_brings (h : w.Good) (hsound : c.Sound w.issued) (hanswer : w.Answers c reply w')
    (hid : w'.Holds key id) (n : Nat) : w.Holds key id ∨ (id, n) ∈ c.brings reply n := by
  by_cases hadds : c.Adds key reply
  · have hgood' := (h.answers hsound hanswer).1
    cases c with
    | manager mc =>
      cases mc with
      | createOrUpdate job =>
        obtain ⟨job', hjob', howner⟩ := hid
        obtain ⟨now, rfl, rfl⟩ := hanswer
        rcases hresult : w.manager.createOrUpdate now job with ⟨reply, m⟩
        have hkeyed := hgood'.lockstep.keyed id job' hjob'
        cases reply with
        | error e =>
          rw [Manager.createOrUpdate_error hresult] at hresult
          simp only [Manager.answer, hresult] at hjob'
          exact .inl ⟨job', hjob', howner⟩
        | ok change =>
          rcases Manager.queued_of_createOrUpdate hjob' with hbefore | rfl
          · exact .inl ⟨job', hbefore, howner⟩
          · refine .inr ?_
            simp only [Manager.answer, hresult, DeskCall.brings, List.mem_singleton, hkeyed]
      | _ => exact hadds.elim
    | _ => exact hadds.elim
  · exact .inl (holds_of_answers h.lockstep hadds hanswer hid).left

end

end World

/-- A world with a pass that collects lost jobs and with the controller of one resource, each at
some point between two of its calls. -/
structure Interplay where
  world : World
  /-- What is left of the last reconcile of the resource. -/
  controller : Procedure Desk (Except Fault Unit)
  /-- What is left of the pass. -/
  pass : Procedure Desk JobCounts
  /-- How often the resource has come into being. -/
  incarnation : Nat
  /-- The incarnation of the copy that the controller was given last. -/
  read : Nat
  /-- The ids of the jobs that the controller has queued, each with the incarnation of the resource
  for which it did so. -/
  queued : List (String × Nat)

namespace Interplay

/-- The controller goes on with an answer. -/
def answered (key : OwnerKey) (s : Interplay) {c : DeskCall}
    (next : c.Reply → Procedure Desk (Except Fault Unit)) (reply : c.Reply) (w' : World) :
    Interplay :=
  { s with
    world := w'
    controller := next reply
    read := c.readAfter key s.incarnation reply s.read
    queued := c.brings reply s.read ++ s.queued }

/-- A user writes the resource, which comes into being by that if it is missing. -/
def written (key : OwnerKey) (s : Interplay) (r : Resource) (version : String) : Interplay :=
  { s with
    world := s.world.write key
      { r with status := (s.world.resources key).bind (·.status) } version
    incarnation := if (s.world.resources key).isNone then s.incarnation + 1 else s.incarnation }

/-- What can happen. One reconcile of the resource is begun after the other, and no outcome of a job
is recorded in its status. -/
inductive Step (key : OwnerKey) : Interplay → Interplay → Prop
  | put {s : Interplay} (r : Resource) (version : String) (hkey : r.key = key)
      (hfresh : version ∉ s.world.versions key) : Step key s (s.written key r version)
  | delete {s : Interplay} : Step key s { s with world := s.world.delete key }
  | begin {s : Interplay} (result : Except Fault Unit) (hdone : s.controller = .done result) :
      Step key s { s with controller := reconcile key }
  | call {s : Interplay} {w' : World} {c : DeskCall}
      (next : c.Reply → Procedure Desk (Except Fault Unit)) (reply : c.Reply)
      (hask : s.controller = .ask c next) (hanswer : s.world.Answers c reply w') :
      Step key s (s.answered key next reply w')
  | collect {s : Interplay} {w' : World} {c : DeskCall}
      (next : c.Reply → Procedure Desk JobCounts) (reply : c.Reply)
      (hask : s.pass = .ask c next) (hanswer : s.world.Answers c reply w') :
      Step key s { s with world := w', pass := next reply }
  | beside {s : Interplay} {w' : World} (hapart : World.Amidst (Happening.Apart key) s.world w') :
      Step key s { s with world := w' }

/-- Whether no reconcile of the resource is under way and the pass has not begun. -/
structure Outset (key : OwnerKey) (s : Interplay) : Prop where
  reachable : World.Reachable s.world
  spares : ∀ p ∈ s.world.procedures, p.Spares key s.world.issued
  controller : ∃ result, s.controller = .done result
  pass : s.pass = sweep
  read : s.read ≤ s.incarnation
  queued : ∀ id n, (id, n) ∈ s.queued → n ≤ s.incarnation ∧ s.world.issued.Of key id

/-- What a call of the pass does and does not do. -/
structure Heeds (key : OwnerKey) (s : Interplay) (c : DeskCall) (w' : World) : Prop where
  /-- It queues nothing. -/
  queue : ∀ id job, w'.manager.queue.get? id = some job →
    s.world.manager.queue.get? id = some job
  /-- What is scheduled is what is queued at that moment. -/
  current : ∀ id entry, w'.manager.engine.agenda.entries.get? id = some entry →
    s.world.manager.queue.get? id = some entry.job ∧ entry.expr = entry.job.schedule
  /-- It schedules nothing but the job that it schedules anew. -/
  resubmitted : ∀ id entry, w'.manager.engine.agenda.entries.get? id = some entry →
    s.world.manager.engine.agenda.entries.get? id = some entry ∨ c = .manager (.resubmit id)
  /-- It takes out no job that was queued for the present incarnation of the resource. -/
  spared : ∀ id, (s.world.manager.queue.get? id).isSome → w'.manager.queue.get? id = none →
    s.world.resources key ≠ none → (id, s.incarnation) ∉ s.queued

variable {key : OwnerKey} {s s' : Interplay}

/-! ### What holds all along -/

/-- What holds all along: nothing but the controller brings jobs of the resource in, and what is
left of its reconcile writes against a version that the resource has had. -/
structure Kept (key : OwnerKey) (s : Interplay) : Prop where
  good : s.world.Good
  versioned : s.world.Versioned
  spares : ∀ p ∈ s.world.procedures, p.Spares key s.world.issued
  sound : s.controller.Keeps (Reconcile.Allowed key) (fun _ _ => True) s.world.issued
  pass : s.pass.Sound s.world.issued
  read : s.read ≤ s.incarnation
  queued : ∀ id n, (id, n) ∈ s.queued → n ≤ s.incarnation ∧ s.world.issued.Of key id
  controller : s.controller = reconcile key ∨
    s.controller.Asks (DeskCall.Against key (s.world.versions key)) fun _ => True

theorem Outset.kept (h : s.Outset key) : s.Kept key where
  good := World.good_of_reachable h.reachable
  versioned := World.versioned_of_reachable h.reachable
  spares := h.spares
  sound := by
    obtain ⟨result, hdone⟩ := h.controller
    exact hdone ▸ trivial
  pass := h.pass ▸ sound_sweep _
  read := h.read
  queued := h.queued
  controller := by
    obtain ⟨result, hdone⟩ := h.controller
    exact .inr (hdone ▸ trivial)

theorem Kept.against (h : s.Kept key) {w' : World} (hrenews : World.Renews s.world w') :
    s.controller = reconcile key ∨
      s.controller.Asks (DeskCall.Against key (w'.versions key)) fun _ => True :=
  h.controller.imp_right fun hasks =>
    hasks.weaken (fun _ hc => hc.mono (hrenews.versions key)) fun _ _ => trivial

theorem Kept.sound_mono (h : s.Kept key) {i : Issued} (hle : s.world.issued.Le i) :
    s.controller.Keeps (Reconcile.Allowed key) (fun _ _ => True) i :=
  Procedure.Keeps.mono h.sound (fun _ hc => hc.mono hle) (fun _ _ => trivial) hle

theorem Kept.queued_mono (h : s.Kept key) {i : Issued} (hle : s.world.issued.Le i) {n : Nat}
    (hn : s.incarnation ≤ n) :
    ∀ id m, (id, m) ∈ s.queued → m ≤ n ∧ i.Of key id := by
  intro id m hmem
  obtain ⟨hm, hof⟩ := h.queued id m hmem
  exact ⟨Nat.le_trans hm hn, hof.mono hle⟩

theorem Kept.put (h : s.Kept key) {r : Resource} {version : String} (hkey : r.key = key)
    (hfresh : version ∉ s.world.versions key) : (s.written key r version).Kept key := by
  subst hkey
  have hstep : World.Step s.world (s.written r.key r version).world := .put r version hfresh
  have hmore : s.incarnation ≤ (s.written r.key r version).incarnation := by
    simp only [written]
    split
    · exact Nat.le_succ _
    · exact Nat.le_refl _
  exact ⟨(h.good.step hstep).1, h.versioned.renews hstep.renews, h.spares, h.sound, h.pass,
    Nat.le_trans h.read hmore, h.queued_mono (.refl _) hmore, h.against hstep.renews⟩

theorem Kept.delete (h : s.Kept key) : Kept key { s with world := s.world.delete key } :=
  have hstep : World.Step s.world (s.world.delete key) := .delete key
  ⟨(h.good.step hstep).1, h.versioned.renews hstep.renews, h.spares, h.sound, h.pass, h.read,
    h.queued, h.controller⟩

theorem Kept.begin (h : s.Kept key) : Kept key { s with controller := reconcile key } :=
  ⟨h.good, h.versioned, h.spares, keeps_reconcile key _, h.pass, h.read, h.queued, .inl rfl⟩

/-- What is left of a reconcile that goes on with an answer. -/
theorem Kept.next {w' : World} {c : DeskCall} {next : c.Reply → Procedure Desk (Except Fault Unit)}
    {reply : c.Reply} (h : s.Kept key) (hask : s.controller = .ask c next)
    (hanswer : s.world.Answers c reply w') :
    (next reply).Asks (DeskCall.Against key (w'.versions key)) fun _ => True := by
  have hversions := (World.renews_of_answers hanswer).versions key
  rcases h.controller with hbegun | hasks
  · rw [hask] at hbegun
    cases hbegun
    match reply with
    | .error e => trivial
    | .ok none => exact ⟨trivial, fun _ => ⟨trivial, fun _ => trivial⟩⟩
    | .ok (some r) =>
      have hr : s.world.resources key = some r := by
        rcases hanswer.2 with hreply | ⟨e, hreply⟩
        · exact (Except.ok.inj hreply).symm
        · exact absurd hreply (by simp)
      obtain ⟨v, hv, hversion⟩ := h.versioned key r hr
      exact Reconcile.against_settleResource (hversions hv) hversion
  · rw [hask] at hasks
    exact (hasks.2 reply).weaken (fun _ hc => hc.mono hversions) fun _ _ => trivial

theorem Kept.call {w' : World} {c : DeskCall} {next : c.Reply → Procedure Desk (Except Fault Unit)}
    {reply : c.Reply} (h : s.Kept key) (hask : s.controller = .ask c next)
    (hanswer : s.world.Answers c reply w') : (s.answered key next reply w').Kept key := by
  have hkeeps := hask ▸ h.sound
  obtain ⟨hsound, hwithin⟩ := hkeeps.1
  obtain ⟨hgood, hle, hfits⟩ := h.good.answers hsound hanswer
  have hspares : ∀ p ∈ s.world.procedures, p.Spares key w'.issued :=
    fun p hp => (h.spares p hp).mono hle
  refine ⟨hgood, h.versioned.renews (World.renews_of_answers hanswer),
    World.forall_procedures_of_answers hanswer (spares_sweep _).task hspares,
    hkeeps.2 _ reply hle hfits, h.pass.mono hle, DeskCall.readAfter_le reply h.read,
    fun id n hmem => ?_, .inr (h.next hask hanswer)⟩
  rcases List.mem_append.1 hmem with hmem | hmem
  · obtain ⟨rfl, job, rfl, rfl⟩ := DeskCall.of_mem_brings hmem
    have howner : job.owner = key := hwithin
    exact ⟨h.read, job.name, hle _ _ (howner ▸ Job.Sound.issued hsound)⟩
  · exact h.queued_mono hle (Nat.le_refl _) id n hmem

theorem Kept.collect {w' : World} {c : DeskCall} {next : c.Reply → Procedure Desk JobCounts}
    {reply : c.Reply} (h : s.Kept key) (hask : s.pass = .ask c next)
    (hanswer : s.world.Answers c reply w') :
    Kept key { s with world := w', pass := next reply } := by
  have hsound : (Procedure.ask c next).Sound s.world.issued := hask ▸ h.pass
  obtain ⟨hgood, hle, hfits⟩ := h.good.answers hsound.1 hanswer
  have hspares : ∀ p ∈ s.world.procedures, p.Spares key w'.issued :=
    fun p hp => (h.spares p hp).mono hle
  have hrenews := World.renews_of_answers hanswer
  exact ⟨hgood, h.versioned.renews hrenews,
    World.forall_procedures_of_answers hanswer (spares_sweep _).task hspares,
    h.sound_mono hle, hsound.2 _ reply hle hfits, h.read, h.queued_mono hle (Nat.le_refl _),
    h.against hrenews⟩

theorem Kept.beside {w' : World} (h : s.Kept key)
    (hapart : World.Amidst (Happening.Apart key) s.world w') :
    Kept key { s with world := w' } := by
  obtain ⟨hgood, hle⟩ := h.good.step hapart.step
  have hrenews := hapart.step.renews
  have helsewhere := hapart.mono fun _ => Happening.Apart.elsewhere
  exact ⟨hgood, h.versioned.renews hrenews, World.spares_of_elsewhere h.good h.spares helsewhere,
    h.sound_mono hle, h.pass.mono hle, h.read, h.queued_mono hle (Nat.le_refl _),
    h.against hrenews⟩

/-! ### What holds once the pass was told that the resource is missing -/

/-- How far the controller is, once the pass was told that the resource is missing. -/
inductive Phase (key : OwnerKey) (before : Issued) (n : Nat) (versions : List String)
    (s : Interplay) : Prop
  /-- It still works with a copy of an earlier resource. -/
  | outdated (hread : s.read ≤ n)
      (hasks : s.controller.Asks (DeskCall.Against key versions) fun _ => True)
      (hunwritten : s.world.Unwritten key)
  /-- It has not come to the jobs of the resource yet. -/
  | preliminary (hempties : s.controller.Empties key)
      (hsound : s.controller.Sound (s.world.issued.since before key))
      (hunwritten : s.world.Unwritten key)
  /-- All jobs of earlier resources are gone. -/
  | renewed (hsound : s.controller.Sound (s.world.issued.since before key))
      (hrenewed : s.world.Renewed before key)

/-- What holds once the pass was told in an incarnation of the resource that it is missing, when
some ids had been given out before and the resource had had some versions. -/
structure Overtaken (key : OwnerKey) (before : Issued) (n : Nat) (versions : List String)
    (s : Interplay) : Prop where
  issued : before.Le s.world.issued
  known : versions ⊆ s.world.versions key
  reached : n ≤ s.incarnation
  queued : ∀ id m, (id, m) ∈ s.queued → before.Of key id → m ≤ n
  stored : ∀ r, s.world.resources key = some r → n < s.incarnation ∧
    ∀ v ∈ versions, r.metadata.resourceVersion ≠ some v
  phase : s.Phase key before n versions

variable {before : Issued} {n : Nat} {versions : List String}

theorem Kept.overtaken (h : s.Kept key) (hle : before.Le s.world.issued)
    (hmissing : s.world.resources key = none) :
    s.Overtaken key before s.incarnation (s.world.versions key) where
  issued := hle
  known := List.Subset.refl _
  reached := Nat.le_refl _
  queued := fun id m hmem _ => (h.queued id m hmem).1
  stored := fun r hr => absurd (hmissing.symm.trans hr) (Option.some_ne_none r).symm
  phase := by
    have hunwritten : s.world.Unwritten key :=
      fun r hr => absurd (hmissing.symm.trans hr) (Option.some_ne_none r).symm
    rcases h.controller with hbegun | hasks
    · exact .preliminary (hbegun ▸ empties_reconcile key) (hbegun ▸ sound_reconcile key _)
        hunwritten
    · exact .outdated h.read hasks hunwritten

/-- What is stored after a write has its version, and the status from before. -/
theorem stored_of_written {r r' : Resource} {version : String}
    (h : (s.written key r version).world.resources key = some r') :
    r'.metadata.resourceVersion = some version ∧ r'.key = r.key ∧
      r'.status = (s.world.resources key).bind (·.status) := by
  obtain rfl := Option.some.inj ((if_pos rfl).symm.trans h)
  exact ⟨rfl, rfl, rfl⟩

theorem Overtaken.put (h : s.Overtaken key before n versions) {r : Resource} {version : String}
    (hkey : r.key = key) (hfresh : version ∉ s.world.versions key) :
    (s.written key r version).Overtaken key before n versions := by
  have hunwritten : s.world.Unwritten key → (s.written key r version).world.Unwritten key := by
    intro hunwritten r' hr'
    rw [(stored_of_written hr').2.2, Option.bind_eq_none_iff]
    exact hunwritten
  have hversions : s.world.versions key ⊆ (s.written key r version).world.versions key := by
    simp only [written, World.write, if_true]
    exact List.subset_cons_self _ _
  refine ⟨h.issued, List.Subset.trans h.known hversions, ?_, h.queued,
    fun r' hr' => ⟨?_, fun v hv heq => ?_⟩, ?_⟩
  · simp only [written]
    split
    · exact Nat.le_succ_of_le h.reached
    · exact h.reached
  · simp only [written]
    split
    · exact Nat.lt_succ_of_le h.reached
    · rename_i hthere
      rw [Option.isNone_iff_eq_none] at hthere
      obtain ⟨former, hformer⟩ := Option.ne_none_iff_exists'.1 hthere
      exact (h.stored former hformer).1
  · obtain rfl := Option.some.inj ((stored_of_written hr').1.symm.trans heq)
    exact hfresh (h.known hv)
  · cases h.phase with
    | outdated hread hasks hblank => exact .outdated hread hasks (hunwritten hblank)
    | preliminary hempties hsound hblank => exact .preliminary hempties hsound (hunwritten hblank)
    | renewed hsound hrenewed =>
      refine .renewed hsound ⟨hrenewed.queued, fun r' hr' => ?_⟩
      obtain ⟨_, hfiled, hstatus⟩ := stored_of_written hr'
      refine ⟨hfiled.trans hkey, fun status hs => ?_⟩
      obtain ⟨former, hformer, hs⟩ := Option.bind_eq_some_iff.1 (hstatus.symm.trans hs)
      exact (hrenewed.stored former hformer).status status hs

theorem Overtaken.delete (h : s.Overtaken key before n versions) :
    Overtaken key before n versions { s with world := s.world.delete key } := by
  have hnone : (s.world.delete key).resources key = none := if_pos rfl
  have hgone : ∀ r, (s.world.delete key).resources key ≠ some r :=
    fun r hr => absurd (hnone.symm.trans hr) (Option.some_ne_none r).symm
  refine ⟨h.issued, h.known, h.reached, h.queued, fun r hr => absurd hr (hgone r), ?_⟩
  cases h.phase with
  | outdated hread hasks _ => exact .outdated hread hasks fun r hr => absurd hr (hgone r)
  | preliminary hempties hsound _ =>
    exact .preliminary hempties hsound fun r hr => absurd hr (hgone r)
  | renewed hsound hrenewed =>
    exact .renewed hsound ⟨hrenewed.queued, fun r hr => absurd hr (hgone r)⟩

/-- A reconcile that is begun works with no copy yet. -/
theorem Overtaken.begin (h : s.Overtaken key before n versions) :
    Overtaken key before n versions { s with controller := reconcile key } := by
  refine ⟨h.issued, h.known, h.reached, h.queued, h.stored, ?_⟩
  have hsound := sound_reconcile key (s.world.issued.since before key)
  cases h.phase with
  | outdated _ _ hblank => exact .preliminary (empties_reconcile key) hsound hblank
  | preliminary _ _ hblank => exact .preliminary (empties_reconcile key) hsound hblank
  | renewed _ hrenewed => exact .renewed hsound hrenewed

theorem Overtaken.calm {w' : World} (h : s.Overtaken key before n versions)
    (hcalm : World.Calm key s.world w') (pass : Procedure Desk JobCounts) :
    Overtaken key before n versions { s with world := w', pass := pass } := by
  refine ⟨h.issued.trans hcalm.issued, List.Subset.trans h.known hcalm.versions, h.reached,
    h.queued, fun r hr => h.stored r (hcalm.resource ▸ hr), ?_⟩
  have hunwritten : s.world.Unwritten key → w'.Unwritten key :=
    fun hblank r hr => hblank r (hcalm.resource ▸ hr)
  cases h.phase with
  | outdated hread hasks hblank => exact .outdated hread hasks (hunwritten hblank)
  | preliminary hempties hsound hblank =>
    exact .preliminary hempties (hsound.mono hcalm.issued.since) (hunwritten hblank)
  | renewed hsound hrenewed =>
    refine .renewed (hsound.mono hcalm.issued.since)
      ⟨fun id hid => hrenewed.queued id (hcalm.holds id hid), fun r hr => ?_⟩
    exact (hrenewed.stored r (hcalm.resource ▸ hr)).mono hcalm.issued.since

/-- A call of the controller queues nothing under an id from before for a later resource, and leaves
the controller in one of the phases. -/
theorem Phase.call {w' : World} {c : DeskCall}
    {next : c.Reply → Procedure Desk (Except Fault Unit)} {reply : c.Reply}
    (h : s.Phase key before n versions) (hover : s.Overtaken key before n versions)
    (hkept : s.Kept key) (hask : s.controller = .ask c next)
    (hanswer : s.world.Answers c reply w') :
    (∀ id m, (id, m) ∈ c.brings reply s.read → before.Of key id → m ≤ n) ∧
      (s.answered key next reply w').Phase key before n versions := by
  have hle : s.world.issued.Le w'.issued :=
    (hkept.good.answers (hask ▸ hkept.sound).1.1 hanswer).2.1
  cases h with
  | outdated hread hasks hblank =>
    rw [hask] at hasks
    have hsame := World.resources_of_against hasks.1 (fun r hr => (hover.stored r hr).2) hanswer
    refine ⟨fun id m hmem _ => (DeskCall.of_mem_brings hmem).1 ▸ hread, .outdated ?_ ?_ ?_⟩
    · exact Nat.le_trans (Nat.le_of_eq (hasks.1.readAfter_eq reply)) hread
    · exact hasks.2 reply
    · exact fun r hr => hblank r (hsame ▸ hr)
  | preliminary hempties hsound hblank =>
    rw [hask] at hempties hsound
    rcases hempties with rfl | ⟨hpreliminary, hnext⟩
    · refine ⟨fun id m hmem => absurd hmem List.not_mem_nil, .renewed ?_ ⟨fun id hid => ?_, ?_⟩⟩
      · exact hsound.2 _ reply hle.since trivial
      · have hadds : ¬(DeskCall.manager (.deleteOwnedBy key)).Adds key reply := False.elim
        exact absurd rfl (World.holds_of_answers hkept.good.lockstep hadds hanswer hid).2
      · obtain ⟨now, _, rfl⟩ := hanswer
        exact fun r hr => hblank.sound hkept.good hr _
    · obtain ⟨htold, hfits, hsame⟩ := hblank.answers hkept.good hpreliminary hanswer
      refine ⟨fun id m hmem => ?_, .preliminary (hnext reply htold) ?_ ?_⟩
      · exact absurd (hpreliminary.brings_eq reply ▸ hmem) List.not_mem_nil
      · exact hsound.2 _ reply hle.since (hfits _)
      · exact fun r hr => hblank r (hsame ▸ hr)
  | renewed hsound hrenewed =>
    rw [hask] at hsound
    obtain ⟨hrenewed', hfits⟩ := hrenewed.answers hkept.good hover.issued hsound.1 hanswer
    refine ⟨fun id m hmem hof => ?_, .renewed (hsound.2 _ reply hle.since hfits) hrenewed'⟩
    obtain ⟨_, job, rfl, rfl⟩ := DeskCall.of_mem_brings hmem
    exact absurd hof (Issued.not_of_since (Job.Sound.issued hsound.1))

theorem Overtaken.call {w' : World} {c : DeskCall}
    {next : c.Reply → Procedure Desk (Except Fault Unit)} {reply : c.Reply}
    (h : s.Overtaken key before n versions) (hkept : s.Kept key)
    (hask : s.controller = .ask c next) (hanswer : s.world.Answers c reply w') :
    (s.answered key next reply w').Overtaken key before n versions := by
  have hle : s.world.issued.Le w'.issued :=
    (hkept.good.answers (hask ▸ hkept.sound).1.1 hanswer).2.1
  have hrenews := World.renews_of_answers hanswer
  obtain ⟨hbrings, hphase⟩ := h.phase.call h hkept hask hanswer
  refine ⟨h.issued.trans hle, List.Subset.trans h.known (hrenews.versions key), h.reached,
    fun id m hmem hof => ?_, fun r' hr' => ?_, hphase⟩
  · rcases List.mem_append.1 hmem with hmem | hmem
    · exact hbrings id m hmem hof
    · exact h.queued id m hmem hof
  · obtain ⟨r, hr, _⟩ := (World.stored_of_answers hanswer).2 r' hr'
    obtain ⟨hlater, hversions⟩ := h.stored r hr
    refine ⟨hlater, fun v hv heq => ?_⟩
    rcases hrenews.resources key r' hr' with hsame | ⟨v', _, hfresh, hversion⟩
    · exact (h.stored r' hsame).2 v hv heq
    · obtain rfl := Option.some.inj (hversion.symm.trans heq)
      exact hfresh (h.known hv)

/-! ### What the pass does -/

/-- What holds at any time: the pass has not begun, or it takes out only what was queued when it
began, jobs of the resource only once it was told that the resource is missing. -/
structure Held (key : OwnerKey) (s : Interplay) : Prop where
  kept : s.Kept key
  pass : s.pass = sweep ∨ ∃ before told, before.Le s.world.issued ∧
    s.pass.Collects key before (fun _ _ => True) told ∧
      (told → ∃ n versions, s.Overtaken key before n versions)

theorem Outset.held (h : s.Outset key) : s.Held key := ⟨h.kept, .inl h.pass⟩

/-- Every call of the pass is one that a pass with some snapshot may make. -/
theorem Held.collects {c : DeskCall} {next : c.Reply → Procedure Desk JobCounts} (h : s.Held key)
    (hask : s.pass = .ask c next) : ∃ before told, before.Le s.world.issued ∧
      c.Collects key before told ∧ (told → ∃ n versions, s.Overtaken key before n versions) := by
  rcases h.pass with hbegun | ⟨before, told, hle, hcollects, hover⟩
  · obtain ⟨rest, hsweep, _⟩ := collects_sweep key
    cases hask.symm.trans (hbegun.trans hsweep)
    exact ⟨s.world.issued, False, .refl _, trivial, False.elim⟩
  · rw [hask] at hcollects
    exact ⟨before, told, hle, hcollects.1, hover⟩

theorem Held.calm {w' : World} {c : DeskCall} {next : c.Reply → Procedure Desk JobCounts}
    {reply : c.Reply} (h : s.Held key) (hask : s.pass = .ask c next)
    (hanswer : s.world.Answers c reply w') : World.Calm key s.world w' := by
  have hsound : (Procedure.ask c next).Sound s.world.issued := hask ▸ h.kept.pass
  obtain ⟨_, _, _, hcollects, _⟩ := h.collects hask
  exact World.calm_of_collects h.kept.good hsound.1 hcollects hanswer

theorem Held.collect {w' : World} {c : DeskCall} {next : c.Reply → Procedure Desk JobCounts}
    {reply : c.Reply} (h : s.Held key) (hask : s.pass = .ask c next)
    (hanswer : s.world.Answers c reply w') :
    Held key { s with world := w', pass := next reply } := by
  have hcalm := h.calm hask hanswer
  refine ⟨h.kept.collect hask hanswer, .inr ?_⟩
  rcases h.pass with hbegun | ⟨before, told, hle, hcollects, hover⟩
  · obtain ⟨rest, hsweep, hrest⟩ := collects_sweep key
    cases hask.symm.trans (hbegun.trans hsweep)
    have hjobs := (h.kept.good.answers (c := .manager .snapshot) trivial hanswer).2.2
    exact ⟨w'.issued, False, .refl _, hrest _ reply hjobs, False.elim⟩
  · rw [hask] at hcollects
    refine ⟨before, _, hle.trans hcalm.issued, hcollects.2 reply, ?_⟩
    rintro (htold | hinforms)
    · obtain ⟨n, versions, hover⟩ := hover htold
      exact ⟨n, versions, hover.calm hcalm _⟩
    · have hmissing := World.missing_of_informs hinforms hanswer
      exact ⟨_, _, (h.kept.overtaken hle hmissing).calm hcalm _⟩

/-- What does not touch the pass holds on to what it was told. -/
theorem Held.aside (h : s.Held key) (hkept : s'.Kept key) (hpass : s'.pass = s.pass)
    (hle : s.world.issued.Le s'.world.issued)
    (hover : ∀ before n versions, s.Overtaken key before n versions →
      s'.Overtaken key before n versions) : s'.Held key := by
  refine ⟨hkept, ?_⟩
  rw [hpass]
  refine h.pass.imp_right ?_
  rintro ⟨before, told, hbefore, hcollects, htold⟩
  refine ⟨before, told, hbefore.trans hle, hcollects, fun h => ?_⟩
  obtain ⟨n, versions, h⟩ := htold h
  exact ⟨n, versions, hover before n versions h⟩

theorem Held.step (h : s.Held key) (hstep : Step key s s') : s'.Held key := by
  cases hstep with
  | put r version hkey hfresh =>
    exact h.aside (h.kept.put hkey hfresh) rfl (.refl _) fun _ _ _ hover => hover.put hkey hfresh
  | delete => exact h.aside h.kept.delete rfl (.refl _) fun _ _ _ hover => hover.delete
  | begin result hdone => exact h.aside h.kept.begin rfl (.refl _) fun _ _ _ hover => hover.begin
  | call next reply hask hanswer =>
    have hle := (h.kept.good.answers (hask ▸ h.kept.sound).1.1 hanswer).2.1
    exact h.aside (h.kept.call hask hanswer) rfl hle
      fun _ _ _ hover => hover.call h.kept hask hanswer
  | collect next reply hask hanswer => exact h.collect hask hanswer
  | beside hapart =>
    have hcalm := World.calm_of_apart h.kept.good h.kept.spares hapart
    exact h.aside (h.kept.beside hapart) rfl hcalm.issued fun _ _ _ hover => hover.calm hcalm _

theorem Held.run (h : s.Held key) (hrun : Relation.ReflTransGen (Step key) s s') :
    s'.Held key := by
  induction hrun with
  | refl => exact h
  | tail _ hstep ih => exact ih.step hstep

theorem Held.heeds {w' : World} {c : DeskCall} {next : c.Reply → Procedure Desk JobCounts}
    {reply : c.Reply} (h : s.Held key) (hask : s.pass = .ask c next)
    (hanswer : s.world.Answers c reply w') : s.Heeds key c w' := by
  obtain ⟨before, told, hle, hcollects, hover⟩ := h.collects hask
  have hgood : w'.Good := (h.kept.collect hask hanswer).good
  have hqueue : ∀ id job, w'.manager.queue.get? id = some job →
      s.world.manager.queue.get? id = some job :=
    fun id job hjob => World.queued_of_collects hcollects hanswer hjob
  refine ⟨hqueue, fun id entry hentry => ?_, fun id entry hentry => ?_,
    fun id hbefore hafter hthere hmem => ?_⟩
  · obtain ⟨hqueued, hexpr⟩ := hgood.lockstep.entries id entry hentry
    exact ⟨hqueue id entry.job hqueued, hexpr⟩
  · exact World.scheduled_of_collects h.kept.good hgood hcollects hanswer hentry
  · obtain rfl := World.delete_of_collects h.kept.good hcollects hanswer hbefore hafter
    obtain ⟨owner, name, hid, htold⟩ := hcollects
    obtain ⟨_, name', hid'⟩ := h.kept.queued id _ hmem
    have howner : owner = key :=
      congrArg Prod.fst (Option.some.inj ((hle _ _ hid).symm.trans hid'))
    -- The pass was told in an earlier incarnation that the resource is missing.
    obtain ⟨n, versions, hover⟩ := hover (htold howner)
    obtain ⟨r, hr⟩ := Option.ne_none_iff_exists'.1 hthere
    have hlate := (hover.stored r hr).1
    exact Nat.not_lt_of_le (hover.queued id _ hmem ⟨name, howner ▸ hid⟩) hlate

/-- A job of the resource comes to be queued only if the controller queues it. -/
theorem Held.holds_of_step (h : s.Held key) (hstep : Step key s s') : ∃ since,
    s'.queued = since ++ s.queued ∧
      ∀ id, s'.world.Holds key id → s.world.Holds key id ∨ ∃ n, (id, n) ∈ since := by
  cases hstep with
  | call next reply hask hanswer =>
    have hsound := (hask ▸ h.kept.sound).1.1
    refine ⟨_, rfl, fun id hid => ?_⟩
    exact (World.holds_or_brings h.kept.good hsound hanswer hid s.read).imp_right
      fun hmem => ⟨_, hmem⟩
  | collect next reply hask hanswer =>
    exact ⟨[], rfl, fun id hid => .inl ((h.calm hask hanswer).holds id hid)⟩
  | beside hapart =>
    have hcalm := World.calm_of_apart h.kept.good h.kept.spares hapart
    exact ⟨[], rfl, fun id hid => .inl (hcalm.holds id hid)⟩
  | _ => exact ⟨[], rfl, fun id hid => .inl hid⟩

theorem Held.holds_of_run (h : s.Held key) (hrun : Relation.ReflTransGen (Step key) s s') :
    ∃ since, s'.queued = since ++ s.queued ∧
      ∀ id, s'.world.Holds key id → s.world.Holds key id ∨ ∃ n, (id, n) ∈ since := by
  induction hrun with
  | refl => exact ⟨[], rfl, fun id hid => .inl hid⟩
  | tail hrun hstep ih =>
    obtain ⟨since, hqueued, hsince⟩ := ih
    obtain ⟨last, hlast, hholds⟩ := (h.run hrun).holds_of_step hstep
    refine ⟨last ++ since, by rw [hlast, hqueued, List.append_assoc], fun id hid => ?_⟩
    rcases hholds id hid with hid | ⟨n, hmem⟩
    · exact (hsince id hid).imp_right fun ⟨n, hmem⟩ => ⟨n, List.mem_append_right _ hmem⟩
    · exact .inr ⟨n, List.mem_append_left _ hmem⟩

/-- However a pass and the reconciles of a resource go on side by side while the resource is deleted
and written again, the pass heeds the queue as it is at each of its calls, and a job of the resource
that is not queued is neither queued nor scheduled later on unless the controller queues it. -/
theorem pass_heeds (houtset : s.Outset key) (hrun : Relation.ReflTransGen (Step key) s s') :
    (∀ (c : DeskCall) next reply w', s'.pass = .ask c next → s'.world.Answers c reply w' →
      s'.Heeds key c w') ∧
    ∀ s'', Relation.ReflTransGen (Step key) s' s'' → ∃ since, s''.queued = since ++ s'.queued ∧
      ∀ id, s''.world.Holds key id ∨ s''.world.Schedules key id →
        s'.world.Holds key id ∨ ∃ n, (id, n) ∈ since := by
  have hheld := houtset.held.run hrun
  refine ⟨fun c next reply w' hask hanswer => hheld.heeds hask hanswer, fun s'' hlater => ?_⟩
  obtain ⟨since, hqueued, hholds⟩ := hheld.holds_of_run hlater
  refine ⟨since, hqueued, fun id hid => hholds id (hid.elim (fun h => h) fun hscheduled => ?_)⟩
  exact (hheld.run hlater).kept.good.holds_of_schedules hscheduled

/-! ### A run -/

open World (shop daily)

/-- The controller after a number of calls with chosen answers, or after as many as are answered. -/
def conducted (answer : World.Chooser) (key : OwnerKey) : Nat → Interplay → Interplay
  | 0, s => s
  | n + 1, s =>
    match s.controller with
    | .ask c next =>
      match answer s.world c with
      | some (reply, w') => conducted answer key n (s.answered key next reply w')
      | none => s
    | .done _ => s

/-- The pass after a number of calls with chosen answers, or after as many as are answered. -/
def collected (answer : World.Chooser) : Nat → Interplay → Interplay
  | 0, s => s
  | n + 1, s =>
    match s.pass with
    | .ask c next =>
      match answer s.world c with
      | some (reply, w') => collected answer n { s with world := w', pass := next reply }
      | none => s
    | .done _ => s

/-- After the resource was written, unless the version is taken, and a reconcile was begun, unless
one is under way. -/
def opened (r : Resource) (version : String) (s : Interplay) : Interplay :=
  match s.controller with
  | .done _ =>
    if version ∈ s.world.versions r.key then s
    else { s.written r.key r version with controller := reconcile r.key }
  | .ask _ _ => s

variable {answer : World.Chooser}

theorem conducted_run (hright : answer.Right) (key : OwnerKey) (n : Nat) (s : Interplay) :
    Relation.ReflTransGen (Step key) s (s.conducted answer key n) := by
  induction n generalizing s with
  | zero => exact .refl
  | succ n ih =>
    unfold conducted
    split
    · rename_i c next hask
      split
      · rename_i reply w' hreply
        exact .head (.call next reply hask (hright _ _ _ _ hreply)) (ih _)
      · exact .refl
    · exact .refl

theorem collected_run (hright : answer.Right) (key : OwnerKey) (n : Nat) (s : Interplay) :
    Relation.ReflTransGen (Step key) s (s.collected answer n) := by
  induction n generalizing s with
  | zero => exact .refl
  | succ n ih =>
    unfold collected
    split
    · rename_i c next hask
      split
      · rename_i reply w' hreply
        exact .head (.collect next reply hask (hright _ _ _ _ hreply)) (ih _)
      · exact .refl
    · exact .refl

theorem opened_run (r : Resource) (version : String) (s : Interplay) :
    Relation.ReflTransGen (Step r.key) s (s.opened r version) := by
  unfold opened
  split
  · rename_i result hdone
    split
    · exact .refl
    · rename_i hfresh
      exact .head (.put r version rfl hfresh) (.single (.begin result hdone))
  · exact .refl

/-- The state before anything has happened. -/
def outset : Interplay where
  world := .new Zone.utc 0
  controller := .done (.ok ())
  pass := sweep
  incarnation := 0
  read := 0
  queued := []

theorem outset_outset (key : OwnerKey) : outset.Outset key where
  reachable := .new Zone.utc 0
  spares := fun _ hp => absurd hp List.not_mem_nil
  controller := ⟨_, rfl⟩
  pass := rfl
  read := Nat.le_refl 0
  queued := fun _ _ hmem => absurd hmem List.not_mem_nil

/-- After a resource was written and reconciled, and the pass has taken its snapshot and was told
that the resource is missing, which was deleted meanwhile. -/
def missed : Interplay :=
  let s := (outset.opened (shop daily) "0").conducted (World.oblige? ⟨0, 0⟩) (shop daily).key 20
  { s with world := s.world.delete (shop daily).key }.collected (World.oblige? ⟨60, 0⟩) 2

/-- After the resource was written and reconciled once more. -/
def recreated : Interplay :=
  (missed.opened (shop daily) "again").conducted (World.obligeAs? "up-2" ⟨60, 0⟩)
    (shop daily).key 20

theorem recreated_run : Relation.ReflTransGen (Step (shop daily).key) outset recreated := by
  have hmissed : Relation.ReflTransGen (Step (shop daily).key) outset missed :=
    (((opened_run _ _ _).trans (conducted_run (World.right_oblige? _) _ _ _)).tail .delete).trans
      (collected_run (World.right_oblige? _) _ _ _)
  exact (hmissed.trans (opened_run _ _ _)).trans
    (conducted_run (World.right_obligeAs? _ _) _ _ _)

/-- Whether the pass is about to take out a job with an id. -/
def drops (s : Interplay) (id : String) : Bool :=
  match s.pass with
  | .ask (.manager (.delete id')) _ => id' == id
  | _ => false

theorem delete_of_drops {id : String} (h : s.drops id = true) :
    ∃ next, s.pass = .ask (.manager (.delete id)) next := by
  unfold drops at h
  split at h
  · rename_i id' next hpass
    obtain rfl := beq_iff_eq.1 h
    exact ⟨next, hpass⟩
  · exact absurd h Bool.false_ne_true

/-- The pass goes on to take the job out that it took for a lost one, and leaves the job that is
queued for the resource that is there again. -/
theorem recreated_spared : ∃ next reply w',
    Relation.ReflTransGen (Step (shop daily).key) outset recreated ∧
      recreated.pass = .ask (.manager (.delete "up")) next ∧
      recreated.world.Answers (.manager (.delete "up")) reply w' ∧
      recreated.incarnation = 2 ∧ ("up-2", 2) ∈ recreated.queued ∧
      recreated.Heeds (shop daily).key (.manager (.delete "up")) w' ∧
        w'.manager.queue.get? "up-2" ≠ none := by
  have hdrops : recreated.drops "up" = true := by decide +kernel
  have hincarnation : recreated.incarnation = 2 := by decide +kernel
  have hmem : ("up-2", 2) ∈ recreated.queued := by decide +kernel
  have hqueued : (recreated.world.manager.queue.get? "up-2").isSome = true := by decide +kernel
  have hthere : (recreated.world.resources (shop daily).key).isSome = true := by decide +kernel
  obtain ⟨next, hask⟩ := delete_of_drops hdrops
  have hanswer : recreated.world.Answers (.manager (.delete "up")) _ _ := ⟨⟨120, 0⟩, rfl, rfl⟩
  have hheeds := (pass_heeds (outset_outset _) recreated_run).1 _ next _ _ hask hanswer
  refine ⟨next, _, _, recreated_run, hask, hanswer, hincarnation, hmem, hheeds, fun hnone => ?_⟩
  refine hheeds.spared "up-2" hqueued hnone (Option.isSome_iff_ne_none.1 hthere) ?_
  rw [hincarnation]
  exact hmem

end Interplay

end CronScale
