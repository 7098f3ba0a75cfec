import CronScale.Proofs.Manager.Happenings
import CronScale.Proofs.Manager.Heeding
import CronScale.Proofs.Manager.Races
/-!
# Jobs that stand

A job that is queued as it is declared, and whose condition does not end it, stands: it stays in
queue and agenda under its id, and its condition stays as it is, to the letter, whatever happens
that leaves the declaration alone and records no outcome for it (`World.Stands.run`).
-/

namespace CronScale

open CronScale.Calendar

/-- What is routine while a specification stands: anything but a write of another specification, a
deletion of the resource, the news of one, an outcome of some jobs, and a new manager. -/
def Happening.Routine (key : OwnerKey) (spec : Spec) (mute : Job → Prop) : Happening → Prop
  | .put r => r.key = key → r.spec = spec
  | .delete k => k ≠ key
  | .begin p => p ≠ watchDeletions (.deleted key)
  | .finish job => ¬mute job
  | .restart => False
  | _ => True

namespace World

/-- What happens while a specification stands and no outcome is recorded under the name of a job. -/
abbrev Unrecorded (key : OwnerKey) (spec : Spec) (name : String) : World → World → Prop :=
  Amidst (Happening.Routine key spec fun job => job.owner = key ∧ job.name = name)

variable {w w' : World} {key : OwnerKey} {spec : Spec} {j : JobSpec} {job queued : Job}
  {c : Condition}

/-- Whether a version of a resource is not the present one any more. -/
def Gone (w : World) (key : OwnerKey) (version : String) : Prop :=
  version ∈ w.versions key ∧
    ∀ r, w.resources key = some r → r.metadata.resourceVersion ≠ some version

/-- A version that is gone does not come back. -/
theorem Gone.renews {version : String} (h : w.Gone key version) (hrenews : Renews w w') :
    w'.Gone key version := by
  refine ⟨hrenews.versions key h.1, fun r hr hversion => ?_⟩
  rcases hrenews.resources key r hr with hr | ⟨v, _, hfresh, heq⟩
  · exact h.2 r hr hversion
  · obtain rfl := Option.some.inj (heq.symm.trans hversion)
    exact hfresh h.1

/-- A write against a version that is gone is not made. -/
theorem Gone.not_patched {version : String} {s : Status} (h : w.Gone key version) :
    ¬w.Patched key s (some version) w' := by
  rintro ⟨r, v, hr, hversion, _⟩
  rcases hversion with hnone | hversion
  · exact Option.some_ne_none version hnone
  · exact h.2 r hr hversion.symm

/-- Whether everything under way leaves a job alone as long as it stands. -/
def Minds (w : World) (key : OwnerKey) (spec : Spec) (j : JobSpec) (job : Job) (c : Condition) :
    Prop :=
  ∀ p ∈ w.procedures, p.Minds key spec j job c (w.Gone key) (fun _ => True) w.issued

theorem Minds.renews (h : w.Minds key spec j job c) (hrenews : Renews w w')
    (hle : w.issued.Le w'.issued) (hissued : w.issued job.id = some (key, j.name)) :
    ∀ p ∈ w.procedures, p.Minds key spec j job c (w'.Gone key) (fun _ => True) w'.issued :=
  fun p hp => (h p hp).mono (fun _ hv => hv.renews hrenews) hle hissued

/-- Whether the status tells the condition of a job, the job is queued, and everything under way
leaves it alone. -/
structure Stands (key : OwnerKey) (spec : Spec) (j : JobSpec) (job queued : Job) (c : Condition)
    (w : World) : Prop where
  good : w.Good
  tells : w.Tells key spec c
  queued : w.manager.queue.get? job.id = some queued
  minds : w.Minds key spec j job c

theorem Stands.issued (h : Stands key spec j job queued c w) (hjob : job.Current key spec j c) :
    w.issued job.id = some (key, j.name) :=
  h.tells.issued h.good hjob.condition hjob.named

/-- What is answered confirms that the job stands. -/
theorem Stands.confirms (h : Stands key spec j job queued c w) (hjob : job.Current key spec j c)
    (halike : queued.differsFrom job = false) {call : DeskCall} {reply : call.Reply}
    (hanswer : w.Answers call reply w') : call.Confirms key spec j job c reply := by
  cases call with
  | store call =>
    cases call with
    | fetch k =>
      rintro rfl
      obtain ⟨r, s, hr, hkey, hcopied⟩ := h.tells.copied h.good hjob.condition hjob.named
      rcases hanswer.2 with hreply | herror
      · exact .inr ⟨r, s, hreply.trans (congrArg Except.ok hr), hkey, hcopied⟩
      · exact .inl herror
    | _ => trivial
  | manager call =>
    cases call with
    | createOrUpdate job' =>
      rintro rfl
      obtain ⟨now, rfl, _⟩ := hanswer
      exact congrArg Prod.fst (Manager.createOrUpdate_of_same h.queued halike now)
    | _ => trivial
  | _ => trivial

/-- A call that leaves the job alone leaves it queued. -/
theorem Stands.queued_of_answer (h : Stands key spec j job queued c w)
    (hjob : job.Current key spec j c) (halike : queued.differsFrom job = false) {mc : ManagerCall}
    (hsound : DeskCall.Sound w.issued (.manager mc))
    (hcall : DeskCall.Respects key spec j job c (w.Gone key) w.issued (.manager mc))
    (now : Instant) :
    (w.manager.answer now mc).2.queue.get? job.id = some queued := by
  have hissued := h.issued hjob
  have howner : queued.owner = key := h.good.owner_of_issued hissued h.queued
  by_cases hconcerns : w.manager.Concerns job.id mc
  · cases mc with
    | createOrUpdate job' =>
      have hboth := Job.Sound.issued hsound
      rw [show job'.id = job.id from hconcerns, hissued] at hboth
      obtain ⟨hkey, hname⟩ := Prod.mk.inj (Option.some.inj hboth)
      obtain rfl := hcall hkey.symm hname.symm
      rw [Manager.answer, Manager.createOrUpdate_of_same h.queued halike]
      exact h.queued
    | delete id => exact absurd hconcerns (hcall hissued)
    | deleteOwnedBy owner =>
      obtain ⟨job', hjob', howner'⟩ := hconcerns
      obtain rfl := Option.some.inj (h.queued.symm.trans hjob')
      exact absurd (howner'.symm.trans howner) hcall
    | retainOwned owner keep =>
      obtain ⟨job', hjob', howner', hleft⟩ := hconcerns
      obtain rfl := Option.some.inj (h.queued.symm.trans hjob')
      exact absurd (hcall (howner'.symm.trans howner)) hleft
    | _ => exact hconcerns.elim
  · exact (Manager.get?_answer h.good.lockstep.keyed hconcerns now).trans h.queued

/-- A call that leaves the condition alone leaves it told. -/
theorem Tells.respected (h : w.Tells key spec c) {call : DeskCall} {reply : call.Reply}
    (hcall : call.Respects key spec j job c (w.Gone key) w.issued)
    (hanswer : w.Answers call reply w') : w'.Tells key spec c := by
  by_cases hpatch : ∃ s version, call = .store (.patchStatus key s version)
  · obtain ⟨s, version, rfl⟩ := hpatch
    have hwritten : w.Patched key s version w' → w'.Tells key spec c := by
      intro hpatched
      rcases hcall rfl with ⟨v, rfl, hgone⟩ | ⟨hadopted, hmem⟩
      · exact absurd hpatched hgone.not_patched
      obtain ⟨r₀, s₀, hr₀, hspec₀, _⟩ := h
      obtain ⟨r, r', hr, hr', hspec, hs'⟩ := hpatched.resource
      obtain rfl := Option.some.inj (hr₀.symm.trans hr)
      exact ⟨r', s, hr', hspec.trans hspec₀, hs', hadopted, hmem⟩
    rcases hanswer with ⟨_, hpatched⟩ | ⟨_, _, ⟨rfl, _⟩ | ⟨_, hpatched⟩⟩
    · exact hwritten hpatched
    · exact h
    · exact hwritten hpatched
  · have hsame := resources_of_answers hanswer fun s version heq => hpatch ⟨s, version, heq⟩
    unfold Tells
    rwa [hsame]

theorem Stands.answers (h : Stands key spec j job queued c w) (hjob : job.Current key spec j c)
    (halike : queued.differsFrom job = false) {call : DeskCall} {reply : call.Reply}
    (hsound : call.Sound w.issued)
    (hcall : call.Respects key spec j job c (w.Gone key) w.issued)
    (hanswer : w.Answers call reply w') : Stands key spec j job queued c w' := by
  have hissued := h.issued hjob
  obtain ⟨hgood, hle, _⟩ := h.good.answers hsound hanswer
  refine ⟨hgood, h.tells.respected hcall hanswer, ?_, ?_⟩
  · rcases answer_of_answers hanswer with hmanager | ⟨mc, now, rfl, hmanager⟩
    · rw [hmanager]
      exact h.queued
    · rw [hmanager]
      exact h.queued_of_answer hjob halike hsound hcall now
  · have hothers := h.minds.renews (renews_of_answers hanswer) hle hissued
    exact forall_procedures_of_answers hanswer (minds_sweep w'.issued).task hothers

theorem minds_of_begun {gone : String → Prop} {p : Procedure Desk Unit}
    (hjob : job.Current key spec j c) (hp : Begun p)
    (hroutine : p ≠ watchDeletions (.deleted key)) (i : Issued) :
    p.Minds key spec j job c gone (fun _ => True) i := by
  rcases hp with ⟨k, rfl⟩ | rfl | ⟨e, rfl⟩
  · exact (minds_reconcile hjob k i).task
  · exact (minds_sweep i).task
  · exact minds_watchDeletions (fun heq => hroutine (congrArg watchDeletions heq)) i

/-- Whatever is routine leaves a job standing. -/
theorem Stands.step (h : Stands key spec j job queued c w) (hjob : job.Current key spec j c)
    (halike : queued.differsFrom job = false)
    (hstep : Unrecorded key spec j.name w w') : Stands key spec j job queued c w' := by
  obtain ⟨happening, hroutine, hhappens⟩ := hstep
  obtain ⟨hgood, hle⟩ := h.good.step hhappens.step
  have hissued := h.issued hjob
  have hrenews := hhappens.step.renews
  have hminds := h.minds.renews hrenews hle hissued
  cases hhappens with
  | put r version hfresh =>
    refine ⟨hgood, ?_, h.queued, hminds⟩
    obtain ⟨r₀, s, hr₀, hspec, hs, hrest⟩ := h.tells
    by_cases hkey : key = r.key
    · subst hkey
      have hstatus : (w.resources r.key).bind (·.status) = some s := by rw [hr₀]; exact hs
      exact ⟨_, s, if_pos rfl, hroutine rfl, hstatus, hrest⟩
    · exact ⟨r₀, s, (if_neg hkey).trans hr₀, hspec, hs, hrest⟩
  | delete k =>
    obtain ⟨r₀, s, hr₀, hrest⟩ := h.tells
    have hkey : ¬key = k := fun heq => hroutine heq.symm
    exact ⟨hgood, ⟨r₀, s, (if_neg hkey).trans hr₀, hrest⟩, h.queued, hminds⟩
  | begin p hp =>
    refine ⟨hgood, h.tells, h.queued, List.forall_mem_cons.2 ⟨?_, h.minds⟩⟩
    exact minds_of_begun hjob hp hroutine _
  | @call _ _ ps qs call next reply hask hanswer =>
    obtain ⟨hsound, hothers⟩ := h.good.caller hask
    have hminds : ∀ p ∈ ps ++ Procedure.ask call next :: qs,
        p.Minds key spec j job c (w.Gone key) (fun _ => True) w.issued := hask ▸ h.minds
    have hcaller := hminds _ (List.mem_append_right _ List.mem_cons_self)
    have hstands : Stands key spec j job queued c { w with procedures := ps ++ qs } :=
      ⟨hothers, h.tells, h.queued, fun p hp =>
        hminds p (((List.sublist_cons_self _ qs).append_left ps).subset hp)⟩
    have hconfirms := hstands.confirms hjob halike hanswer
    obtain ⟨_, _, hfits⟩ := hothers.answers hsound.1 hanswer
    have hafter := hstands.answers hjob halike hsound.1 hcaller.1 hanswer
    refine ⟨hgood, hafter.tells, hafter.queued, List.forall_mem_cons.2 ⟨?_, hafter.minds⟩⟩
    have hnext := hcaller.2 _ reply hle hfits hconfirms
    exact Procedure.Minds.mono hnext (fun _ hv => hv.renews hrenews) (.refl _) (hle _ _ hissued)
  | turn now => exact ⟨hgood, h.tells, h.queued, h.minds⟩
  | start now => exact ⟨hgood, h.tells, h.queued, h.minds⟩
  | stop => exact ⟨hgood, h.tells, h.queued, h.minds⟩
  | @finish _ js ks job' settings outcome hexecuting =>
    refine ⟨hgood, h.tells, h.queued, List.forall_mem_cons.2 ⟨?_, h.minds⟩⟩
    have hsound : job'.Sound w.issued :=
      h.good.executing job' (hexecuting ▸ List.mem_append_right _ List.mem_cons_self)
    exact minds_record settings outcome hjob hissued hsound hroutine
  | lose job' hexecuting => exact ⟨hgood, h.tells, h.queued, h.minds⟩
  | restart zone staleness => exact hroutine.elim

/-- A job that stands does so all along a run of what is routine. -/
theorem Stands.run (h : Stands key spec j job queued c w) (hjob : job.Current key spec j c)
    (halike : queued.differsFrom job = false)
    (hrun : Relation.ReflTransGen (Unrecorded key spec j.name) w w') :
    Stands key spec j job queued c w' := by
  induction hrun with
  | refl => exact h
  | tail _ hstep ih => exact ih.step hjob halike hstep

/-- A procedure that leaves the job alone does so while what is routine happens between its calls,
and comes to what it comes to as long as the job stands. -/
theorem Stands.exec {α : Type} {p : Procedure Desk α} {own : List (World × World)} {a : α}
    {post : α → Prop} (h : Stands key spec j job queued c w) (hjob : job.Current key spec j c)
    (halike : queued.differsFrom job = false)
    (hexec : Exec (Unrecorded key spec j.name) w p own a w') (hsound : p.Sound w.issued)
    (hminds : p.Minds key spec j job c (w.Gone key) post w.issued) :
    Stands key spec j job queued c w' ∧ post a := by
  induction hexec with
  | done a => exact ⟨h, hminds⟩
  | between hstep _ ih =>
    obtain ⟨_, hle⟩ := h.good.step hstep.step
    have hissued := h.issued hjob
    exact ih (h.step hjob halike hstep) (hsound.mono hle)
      (hminds.mono (fun _ hv => hv.renews hstep.step.renews) hle hissued)
  | ask hanswer _ ih =>
    obtain ⟨_, hle, hfits⟩ := h.good.answers hsound.1 hanswer
    have hconfirms := h.confirms hjob halike hanswer
    have hafter := h.answers hjob halike hsound.1 hminds.1 hanswer
    have hnext := hminds.2 _ _ hle hfits hconfirms
    exact ih hafter (hsound.2 _ _ hle hfits) (Procedure.Minds.mono hnext
      (fun _ hv => hv.renews (renews_of_answers hanswer)) (.refl _) (hle _ _ (h.issued hjob)))

theorem Stands.scheduled (h : Stands key spec j job queued c w) :
    w.manager.engine.scheduled? job.id = some (queued, queued.schedule) := by
  rw [(Manager.lockstep_iff.1 h.good.lockstep).2, h.queued, Option.map_some]

/-- The turn of the job in a reconcile, with what is routine between its calls, leaves the draft as
it was. -/
theorem Stands.settled {r : Resource} {left : List Condition} {d d' : Draft}
    {own : List (World × World)} (h : Stands key spec j job queued c w)
    (hjob : job.Current key spec j c) (halike : queued.differsFrom job = false)
    (hkey : r.key = key) (hspec : r.spec = spec) (hfind : left.find? (·.name == j.name) = some c)
    (hexec : Exec (Unrecorded key spec j.name) w (Reconcile.settleJob key r left j d) own d' w') :
    d' = d := by
  have hminds : (Reconcile.settleJob key r left j d).Minds key spec j job c (w.Gone key) (· = d)
      w.issued := Reconcile.minds_settleJob hjob hkey hspec hfind d w.issued
  obtain ⟨_, howner, hname, _⟩ := Reconcile.job_of_build (hjob.built r hkey hspec)
  have hissued : w.issued job.id = some (job.owner, job.name) := by
    rw [howner, hname, hkey]
    exact h.issued hjob
  have hsound : (Reconcile.settleJob key r left j d).Sound w.issued := by
    rw [Reconcile.settleJob_of_current hjob hkey hspec hfind]
    refine Procedure.Keeps.seq (Procedure.keeps_ask trivial) fun i₁ now hle _ => ?_
    refine Procedure.Keeps.seq (Procedure.keeps_ask ⟨hjob.named, hle _ _ hissued⟩)
      fun i₂ reply _ _ => ?_
    cases reply with
    | ok change =>
      show Procedure.Keeps _ _ (if change = .unchanged ∧ true then pure d else pure _) i₂
      split
      · trivial
      · trivial
    | error e => trivial
  exact (h.exec hjob halike hexec hsound hminds).2

/-- Whether a condition is the only one of its job, the job is queued and scheduled, and whatever
copy of the resource with this condition a reconcile works on, it retains the condition, and the
turn of the job changes nothing of the status that it will write, nor whether it writes one. -/
structure Abides (w : World) (key : OwnerKey) (spec : Spec) (j : JobSpec) (job : Job)
    (c : Condition) : Prop where
  told : w.Tells key spec c
  only : ∀ c', w.Tells key spec c' → c'.name = j.name → c' = c
  queued : w.manager.queue.get? job.id = some job
  scheduled : w.manager.engine.scheduled? job.id = some (job, job.schedule)
  retained : ∀ s : Status, s.globalChange spec = false → c ∈ s.conditions →
    c ∈ Reconcile.retained spec s
  settled : ∀ (r : Resource) (s : Status), r.key = key → r.spec = spec →
    (s.conditions.map Condition.name).Nodup → c ∈ Reconcile.retained spec s →
    ∀ d own d' w', Exec (Unrecorded key spec j.name) w
      (Reconcile.settleJob key r (Reconcile.retained spec s) j d) own d' w' → d' = d

theorem Stands.abides (h : Stands key spec j job queued c w)
    (hjob : job.Current key spec j c) (halike : queued.differsFrom job = false)
    (hid : queued.id = job.id) : w.Abides key spec j queued c where
  told := h.tells
  only := fun c' hc' hname => h.tells.eq hc' h.good (hname.trans hjob.condition.name.symm)
  queued := hid ▸ h.queued
  scheduled := hid ▸ h.scheduled
  retained := fun s hadopted hc => Reconcile.mem_retained hjob.names hjob.declared hadopted hc
    hjob.condition.name hjob.condition.unchanged
  settled := by
    intro r s hkey hspec hdistinct hc d own d' w' hexec
    have hfind := find?_of_nodup (Reconcile.nodup_retained hdistinct spec) hc
    rw [hjob.condition.name] at hfind
    exact h.settled hjob halike hkey hspec hfind hexec

end World

end CronScale
