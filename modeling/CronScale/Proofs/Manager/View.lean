import CronScale.Proofs.Manager.Invariant
/-!
# One resource at a time

Seen from one resource, a world is the resource itself, the jobs that are queued for it and the ids
that were given out. What a reconcile of the resource does can be told in these terms (`Effect`).
As long as nothing else touches the resource or its jobs, what a procedure ensures when it runs
alone (`Ensures`) it ensures in the world too, and it leaves the jobs of all other resources as they
are (`Exec.ensures`).
-/

namespace CronScale

open CronScale.Calendar

/-- What there is of one resource in a world. -/
structure View where
  issued : Issued
  /-- The queued jobs of the resource, by their ids. -/
  jobs : String → Option Job
  resource : Option Resource

/-- A world as seen from a resource. -/
def World.view (w : World) (key : OwnerKey) : View where
  issued := w.issued
  jobs := fun id => (w.manager.queue.get? id).filter (·.owner = key)
  resource := w.resources key

/-- Whether nothing has changed except that ids may have been given out. -/
structure View.Grows (v v' : View) : Prop where
  issued : v.issued.Le v'.issued
  jobs : v'.jobs = v.jobs
  resource : v'.resource = v.resource

theorem View.Grows.refl (v : View) : v.Grows v := ⟨.refl _, rfl, rfl⟩

theorem View.Grows.trans {v v' v'' : View} (h : v.Grows v') (h' : v'.Grows v'') : v.Grows v'' :=
  ⟨h.issued.trans h'.issued, h'.jobs.trans h.jobs, h'.resource.trans h.resource⟩

namespace DeskCall

/-- What comes of a call of a reconcile for the resource: which of its jobs are queued afterwards
and whether its status was written. -/
def Effect (key : OwnerKey) (v v' : View) : (c : DeskCall) → c.Reply → Prop
  | .store (.fetch k), reply =>
    v'.jobs = v.jobs ∧ v'.resource = v.resource ∧
      (k = key → ∀ r, reply = .ok r → r = v.resource)
  | .store (.patchStatus k s _), reply =>
    v'.jobs = v.jobs ∧
      (k = key → (reply = .ok () → ∃ r r', v.resource = some r ∧ v'.resource = some r' ∧
          r'.spec = r.spec ∧ r'.status = some s) ∧
        ∀ e, reply = .error e → e.isMissing = true → v.resource = none)
  | .manager (.createOrUpdate job), reply =>
    v'.resource = v.resource ∧ (∀ id, id ≠ job.id → v'.jobs id = v.jobs id) ∧
      (∀ change, reply = .ok change → ∃ queued, v'.jobs job.id = some queued ∧
        queued.differsFrom job = false) ∧
      ∀ e, reply = .error e → ∃ cause, Schedule.parse job.schedule = .error cause
  | .manager (.delete id), _ =>
    v'.resource = v.resource ∧ ∀ id', v'.jobs id' = if id' = id then none else v.jobs id'
  | .manager (.deleteOwnedBy _), _ => v'.resource = v.resource ∧ ∀ id, v'.jobs id = none
  | .manager (.retainOwned _ keep), _ =>
    v'.resource = v.resource ∧ ∀ id, v'.jobs id = if id ∈ keep then v.jobs id else none
  | .manager (.queuedId owner name), reply =>
    v'.jobs = v.jobs ∧ v'.resource = v.resource ∧
      (owner = key → (∀ id, reply = some id → v.jobs id ≠ none) ∧
        (reply = none → ∀ id, v.issued id = some (key, name) → v.jobs id = none))
  | .freshId _ _, id => v'.jobs = v.jobs ∧ v'.resource = v.resource ∧ v.issued id = none
  | _, _ => v'.jobs = v.jobs ∧ v'.resource = v.resource

variable {key : OwnerKey} {v v₁ v' : View}

theorem Effect.of_grows {c : DeskCall} {reply : c.Reply} (hgrows : v.Grows v₁)
    (h : c.Effect key v₁ v' reply) : c.Effect key v v' reply := by
  obtain ⟨issued, jobs, resource⟩ := v₁
  obtain ⟨hle, rfl, rfl⟩ := hgrows
  cases c with
  | store c => cases c <;> exact h
  | manager c =>
    cases c with
    | queuedId owner name =>
      obtain ⟨hjobs, hresource, hfound⟩ := h
      refine ⟨hjobs, hresource, fun howner => ⟨(hfound howner).1, fun hnone id hid => ?_⟩⟩
      exact (hfound howner).2 hnone id (hle _ _ hid)
    | _ => exact h
  | freshId owner name =>
    obtain ⟨hjobs, hresource, hfresh⟩ := h
    exact ⟨hjobs, hresource, hle.eq_none hfresh⟩
  | _ => exact h

end DeskCall

namespace Procedure

variable {α β : Type} {key : OwnerKey} {post : View → α → Prop} {v v' : View}

/-- Whether a procedure of a reconcile, run from a view with nothing else touching the resource,
leaves a view and a result with a property. -/
def Ensures (key : OwnerKey) (post : View → α → Prop) : Procedure Desk α → View → Prop
  | .done a, v => ∀ v', v.Grows v' → post v' a
  | .ask c next, v => ∀ v' reply, v.issued.Le v'.issued → c.Fits v'.issued reply →
    c.Effect key v v' reply → Ensures key post (next reply) v'

theorem Ensures.grows {p : Procedure Desk α} (h : p.Ensures key post v) (hgrows : v.Grows v') :
    p.Ensures key post v' := by
  cases p with
  | done a => exact fun v'' hgrows' => h v'' (hgrows.trans hgrows')
  | ask c next =>
    intro v'' reply hle hfits heffect
    exact h v'' reply (hgrows.issued.trans hle) hfits (heffect.of_grows hgrows)

theorem Ensures.weaken {p : Procedure Desk α} {post' : View → α → Prop}
    (h : p.Ensures key post v) (hpost : ∀ v' a, v.issued.Le v'.issued → post v' a → post' v' a) :
    p.Ensures key post' v := by
  induction p generalizing v with
  | done a => exact fun v' hgrows => hpost v' a hgrows.issued (h v' hgrows)
  | ask c next ih =>
    intro v' reply hle hfits heffect
    exact ih reply (h v' reply hle hfits heffect) fun v'' a hle' => hpost v'' a (hle.trans hle')

theorem Ensures.seq {p : Procedure Desk α} {f : α → Procedure Desk β} {post' : View → β → Prop}
    (h : p.Ensures key post v)
    (hf : ∀ v' a, v.issued.Le v'.issued → post v' a → (f a).Ensures key post' v') :
    (p >>= f).Ensures key post' v := by
  induction p generalizing v with
  | done a => exact hf v a (.refl _) (h v (.refl v))
  | ask c next ih =>
    intro v' reply hle hfits heffect
    exact ih reply (h v' reply hle hfits heffect) fun v'' a hle' => hf v'' a (hle.trans hle')

theorem ensures_true (p : Procedure Desk α) (v : View) : p.Ensures key (fun _ _ => True) v := by
  induction p generalizing v with
  | done a => exact fun _ _ => trivial
  | ask c next ih => exact fun v' reply _ _ _ => ih reply v'

theorem ensures_pure {a : α} (h : ∀ v', v.Grows v' → post v' a) :
    (pure a : Procedure Desk α).Ensures key post v := h

theorem ensures_ask {c : DeskCall} {f : c.Reply → Procedure Desk α}
    (h : ∀ v' reply, v.issued.Le v'.issued → c.Fits v'.issued reply → c.Effect key v v' reply →
      (f reply).Ensures key post v') : (Desk.ask c >>= f).Ensures key post v := h

/-- What a procedure keeps belongs to what it ensures, for ids given out by then. -/
theorem Ensures.keeps {p : Procedure Desk α} {allowed : Issued → DeskCall → Prop}
    {kept : Issued → α → Prop} (h : p.Ensures key post v) (hkeeps : p.Keeps allowed kept v.issued) :
    p.Ensures key (fun v' a => post v' a ∧ ∃ i, i.Le v'.issued ∧ kept i a) v := by
  induction p generalizing v with
  | done a => exact fun v' hgrows => ⟨h v' hgrows, v.issued, hgrows.issued, hkeeps⟩
  | ask c next ih =>
    intro v' reply hle hfits heffect
    exact ih reply (h v' reply hle hfits heffect) (hkeeps.2 v'.issued reply hle hfits)

end Procedure

/-- Whether the jobs and entries of all resources but one are the same. -/
structure Manager.Spares (key : OwnerKey) (m m' : Manager) : Prop where
  queue : ∀ id job, job.owner ≠ key →
    (m'.queue.get? id = some job ↔ m.queue.get? id = some job)
  engine : ∀ id entry, entry.job.owner ≠ key →
    (m'.engine.agenda.entries.get? id = some entry ↔
      m.engine.agenda.entries.get? id = some entry)

namespace World

variable {w w' : World} {key : OwnerKey}

/-- What may happen while a resource is reconciled: anything that leaves the resource and its queued
jobs as they are. That is everything but writes of the resource, other reconciles of it, what is
done when it was deleted, and restarts. -/
structure Aside (key : OwnerKey) (w w' : World) : Prop where
  step : Step w w'
  resource : w'.resources key = w.resources key
  jobs : ∀ id job, job.owner = key →
    (w'.manager.queue.get? id = some job ↔ w.manager.queue.get? id = some job)

theorem jobs_view_eq_some {id : String} {job : Job} :
    (w.view key).jobs id = some job ↔ w.manager.queue.get? id = some job ∧ job.owner = key := by
  simp only [view, Option.filter_eq_some_iff, decide_eq_true_eq]

theorem Aside.grows (h : Aside key w w') (hle : w.issued.Le w'.issued) :
    (w.view key).Grows (w'.view key) := by
  refine ⟨hle, funext fun id => Option.ext fun job => ?_, h.resource⟩
  rw [jobs_view_eq_some, jobs_view_eq_some]
  exact and_congr_left fun howner => h.jobs id job howner

/-- A job that is queued under an id that was given out for a resource belongs to it. -/
theorem Good.owner_of_issued (h : w.Good) {id name : String} {job : Job}
    (hid : w.issued id = some (key, name)) (hjob : w.manager.queue.get? id = some job) :
    job.owner = key := by
  have hissued := (h.queued id job hjob).issued
  rw [h.lockstep.keyed id job hjob, hid] at hissued
  exact (Prod.mk.inj (Option.some.inj hissued)).1.symm

theorem Good.name_of_issued (h : w.Good) {id name : String} {job : Job}
    (hid : w.issued id = some (key, name)) (hjob : w.manager.queue.get? id = some job) :
    job.name = name := by
  have hissued := (h.queued id job hjob).issued
  rw [h.lockstep.keyed id job hjob, hid] at hissued
  exact (Prod.mk.inj (Option.some.inj hissued)).2.symm

theorem Good.jobs_of_issued (h : w.Good) {id name : String} {job : Job}
    (hid : w.issued id = some (key, name)) (hjob : w.manager.queue.get? id = some job) :
    (w.view key).jobs id = some job :=
  jobs_view_eq_some.2 ⟨hjob, h.owner_of_issued hid hjob⟩

theorem grows_view (hle : w.issued.Le w'.issued) (hmanager : w'.manager = w.manager)
    (hresource : w'.resources key = w.resources key) : (w.view key).Grows (w'.view key) :=
  ⟨hle, by simp only [view, hmanager], hresource⟩

theorem effect_of_answer {c : ManagerCall} {now : Instant} (h : w.Good)
    (hc : Reconcile.Allowed key w.issued (.manager c))
    (hgood : Good { w with manager := (w.manager.answer now c).2 }) :
    DeskCall.Effect key (w.view key)
      (view { w with manager := (w.manager.answer now c).2 } key) (.manager c)
      (w.manager.answer now c).1 := by
  cases c with
  | note owner complaint =>
    obtain ⟨complaints, heq⟩ := w.manager.note_eq owner complaint
    exact ⟨by simp only [view, Manager.answer, heq], rfl⟩
  | createOrUpdate job =>
    have hissued : w.issued job.id = some (key, job.name) := hc.2 ▸ hc.1.issued
    refine ⟨rfl, fun id hid => ?_, fun change hchange => ?_, fun e he => ?_⟩
    · exact congrArg (Option.filter _) (Manager.sameAt_createOrUpdate hid).1
    · obtain ⟨queued, hqueued, hdiffers⟩ := Manager.queued_createOrUpdate hchange
      exact ⟨queued, hgood.jobs_of_issued hissued hqueued, hdiffers⟩
    · exact Manager.unreadable_of_createOrUpdate he
  | delete id =>
    refine ⟨rfl, fun id' => ?_⟩
    simp only [view, Manager.answer, Manager.delete, Manager.get?_drop]
    split
    · rfl
    · rfl
  | deleteOwnedBy owner =>
    obtain rfl : owner = key := hc.2
    refine ⟨rfl, fun id => ?_⟩
    exact Manager.get?_dropAll_idsOf h.lockstep.keyed owner (fun _ => true) id
  | retainOwned owner keep =>
    obtain rfl : owner = key := hc.2
    refine ⟨rfl, fun id => ?_⟩
    refine (Manager.get?_dropAll_idsOf h.lockstep.keyed owner _ id).trans ?_
    by_cases hkeep : id ∈ keep
    · simp [hkeep, view]
    · simp [hkeep]
  | resubmit id => exact hc.2.elim
  | queuedId owner name =>
    refine ⟨rfl, rfl, ?_⟩
    rintro rfl
    refine ⟨fun id hid hnone => ?_, fun hnone id hid => ?_⟩
    · obtain ⟨job, hjob, howner, _⟩ := Manager.queuedId_eq_some h.lockstep.keyed hid
      exact absurd (hnone.symm.trans (jobs_view_eq_some.2 ⟨hjob, howner⟩)) (by simp)
    · refine Option.eq_none_iff_forall_ne_some.2 fun job hjob => ?_
      obtain ⟨hqueued, howner⟩ := jobs_view_eq_some.1 hjob
      exact Manager.queuedId_ne_none hqueued howner (h.name_of_issued hid hqueued) hnone
  | _ => exact ⟨rfl, rfl⟩

theorem effect_of_answers (h : w.Good) {c : DeskCall} {reply : c.Reply}
    (hc : Reconcile.Allowed key w.issued c) (hanswer : w.Answers c reply w') :
    c.Effect key (w.view key) (w'.view key) reply := by
  obtain ⟨hgood, hle, _⟩ := h.answers hc.1 hanswer
  have hgrows : (∀ mc, c ≠ .manager mc) →
      (∀ s version, c ≠ .store (.patchStatus key s version)) →
        (w'.view key).jobs = (w.view key).jobs ∧ w'.resources key = w.resources key := by
    intro hmanager hpatch
    have hgrows := grows_view hle (manager_of_answers hanswer hmanager)
      (resources_of_answers hanswer hpatch)
    exact ⟨hgrows.jobs, hgrows.resource⟩
  cases c with
  | store c =>
    cases c with
    | fetch k =>
      obtain ⟨hjobs, hresource⟩ := hgrows (by simp) (by simp)
      refine ⟨hjobs, hresource, ?_⟩
      rintro rfl r hr
      rcases hanswer.2 with hreply | ⟨e, hreply⟩
      · exact Except.ok.inj (hr.symm.trans hreply)
      · exact absurd (hr.symm.trans hreply) (by simp)
    | patchStatus k s version =>
      have hmanager := manager_of_answers hanswer (by simp)
      refine ⟨by simp only [view, hmanager], ?_⟩
      rintro rfl
      rcases hanswer with ⟨rfl, hpatched⟩ | ⟨e, rfl, hfailed⟩
      · exact ⟨fun _ => hpatched.resource, fun e he => absurd he (by simp)⟩
      · refine ⟨fun hok => absurd hok (by simp), fun e' he hmissing => ?_⟩
        obtain rfl := Except.error.inj he
        rcases hfailed with ⟨_, hresource⟩ | ⟨hnot, _⟩
        · exact hresource hmissing
        · exact absurd (hnot.symm.trans hmissing) (by decide)
    | publish r e => exact hgrows (by simp) (by simp)
  | manager c =>
    obtain ⟨now, rfl, rfl⟩ := hanswer
    exact effect_of_answer h hc hgood
  | freshId owner name =>
    obtain ⟨hjobs, hresource⟩ := hgrows (by simp) (by simp)
    exact ⟨hjobs, hresource, hanswer.2.1⟩
  | _ => exact hgrows (by simp) (by simp)

/-- A call of a reconcile changes nothing about ids that were not given out for the resource. -/
theorem sameAt_of_answers (h : w.Good) {c : DeskCall} {reply : c.Reply}
    (hc : Reconcile.Allowed key w.issued c) (hanswer : w.Answers c reply w') {id : String}
    (hid : ∀ name, w.issued id ≠ some (key, name)) : w.manager.SameAt w'.manager id := by
  rcases answer_of_answers hanswer with hmanager | ⟨mc, now, rfl, hmanager⟩
  · rw [hmanager]
    exact .refl _ id
  · rw [hmanager]
    have hdropped : ∀ test, id ∉ w.manager.idsOf key test := by
      intro test hmem
      obtain ⟨job, hjob, howner, _⟩ := (Manager.mem_idsOf h.lockstep.keyed).1 hmem
      have hissued := (h.queued id job hjob).issued
      rw [h.lockstep.keyed id job hjob, howner] at hissued
      exact hid job.name hissued
    cases mc with
    | note owner complaint =>
      obtain ⟨complaints, heq⟩ := w.manager.note_eq owner complaint
      simp only [Manager.answer, heq]
      exact .refl _ id
    | createOrUpdate job =>
      refine Manager.sameAt_createOrUpdate fun heq => hid job.name ?_
      rw [heq, hc.1.issued, hc.2]
    | delete id' =>
      obtain ⟨name, hissued⟩ := hc.2
      exact Manager.sameAt_drop fun heq => hid name (heq ▸ hissued)
    | deleteOwnedBy owner =>
      obtain rfl : owner = key := hc.2
      exact Manager.sameAt_dropAll (hdropped _)
    | retainOwned owner keep =>
      obtain rfl : owner = key := hc.2
      exact Manager.sameAt_dropAll (hdropped _)
    | resubmit id' => exact hc.2.elim
    | _ => exact .refl _ id

theorem spares_of_answers (h : w.Good) {c : DeskCall} {reply : c.Reply}
    (hc : Reconcile.Allowed key w.issued c) (hanswer : w.Answers c reply w') :
    w.manager.Spares key w'.manager := by
  obtain ⟨hgood, hle, _⟩ := h.answers hc.1 hanswer
  -- Under an id that was given out for the resource there is no job of another one.
  have hqueue : ∀ id job, job.owner ≠ key →
      (w'.manager.queue.get? id = some job ∨ w.manager.queue.get? id = some job) →
        w.manager.SameAt w'.manager id := by
    intro id job howner hjob
    refine sameAt_of_answers h hc hanswer fun name hid => ?_
    rcases hjob with hjob | hjob
    · exact howner (hgood.owner_of_issued (hle _ _ hid) hjob)
    · exact howner (h.owner_of_issued hid hjob)
  constructor
  · intro id job howner
    constructor
    · intro hjob
      rwa [(hqueue id job howner (.inl hjob)).1] at hjob
    · intro hjob
      rwa [(hqueue id job howner (.inr hjob)).1]
  · intro id entry howner
    constructor
    · intro hentry
      have hjob := (hgood.lockstep.entries id entry hentry).1
      rwa [(hqueue id entry.job howner (.inl hjob)).2] at hentry
    · intro hentry
      have hjob := (h.lockstep.entries id entry hentry).1
      rwa [(hqueue id entry.job howner (.inr hjob)).2]

/-- While nothing else touches a resource, a procedure of its reconcile does in the world what it
does when it runs alone, and spares all other resources. -/
theorem Exec.ensures {α : Type} {p : Procedure Desk α} {own : List (World × World)} {a : α}
    {post : View → α → Prop} (hexec : Exec (Aside key) w p own a w') (h : w.Good)
    (hkeeps : p.Keeps (Reconcile.Allowed key) (fun _ _ => True) w.issued)
    (hensures : p.Ensures key post (w.view key)) :
    post (w'.view key) a ∧ w'.Good ∧ ∀ step ∈ own, step.1.manager.Spares key step.2.manager := by
  induction hexec with
  | done a => exact ⟨hensures _ (.refl _), h, fun _ hstep => absurd hstep List.not_mem_nil⟩
  | between haside _ ih =>
    obtain ⟨hgood, hle⟩ := h.step haside.step
    have hkeeps' := hkeeps.mono (fun _ hc => hc.mono hle) (fun _ _ => trivial) hle
    exact ih hgood hkeeps' (hensures.grows (haside.grows hle))
  | ask hanswer _ ih =>
    obtain ⟨hallowed, hnext⟩ := hkeeps
    obtain ⟨hgood, hle, hfits⟩ := h.answers hallowed.1 hanswer
    have heffect := effect_of_answers h hallowed hanswer
    obtain ⟨hpost, hgood', hspares⟩ :=
      ih hgood (hnext _ _ hle hfits) (hensures _ _ hle hfits heffect)
    exact ⟨hpost, hgood', List.forall_mem_cons.2 ⟨spares_of_answers h hallowed hanswer, hspares⟩⟩

end World

end CronScale
