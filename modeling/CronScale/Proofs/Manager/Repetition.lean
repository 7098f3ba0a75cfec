import CronScale.Proofs.Manager.Calls
import CronScale.Proofs.Manager.Reconciled
import CronScale.Proofs.Manager.Trace
/-!
# Reconciling twice

What a reconcile that succeeds leaves behind is at rest (`World.Resting`): the complaint about the
resource is known, every condition is retained, and each declared job is queued as it should be, or
has run, or is known to be impossible. A second reconcile finds nothing to do then. It writes and
publishes nothing and leaves the world as it is (`World.reconcile_repeated`).
-/

namespace CronScale

open CronScale.Calendar

/-! ### Steps of the manager's own that do nothing -/

theorem Table.erase_of_get?_eq_none {κ υ : Type} [DecidableEq κ] {t : Table κ υ} {k : κ}
    (h : t.get? k = none) : t.erase k = t := by
  obtain ⟨rows, distinct⟩ := t
  simp only [erase, filter, Table.mk.injEq, List.filter_eq_self]
  intro row hrow
  have hkey : row.1 ≠ k := by
    rintro rfl
    have hmem : (row.1, row.2) ∈ (Table.mk rows distinct).rows := hrow
    have hvalue := get?_eq_some_iff.2 hmem
    exact absurd (h.symm.trans hvalue) (Option.some_ne_none _).symm
  exact decide_eq_true hkey

namespace Manager

variable {m : Manager}

theorem drop_of_absent (h : m.Lockstep) {id : String} (hid : m.queue.get? id = none) :
    m.drop id = m := by
  have habsent : m.engine.agenda.entries.contains id = false := by
    rw [h.sameIds id, Table.contains, hid]
    rfl
  simp only [drop, Table.erase_of_get?_eq_none hid, Engine.remove, habsent, Bool.false_eq_true,
    if_false]

theorem retainOwned_of_kept (h : m.Lockstep) {owner : OwnerKey} {keep : List String}
    (hkept : ∀ id job, m.queue.get? id = some job → job.owner = owner → id ∈ keep) :
    (m.retainOwned owner keep).2 = m := by
  have hnone : m.idsOf owner (fun id => !keep.contains id) = [] := by
    rw [List.eq_nil_iff_forall_not_mem]
    intro id hid
    obtain ⟨job, hjob, howner, hdropped⟩ := (mem_idsOf h.keyed).1 hid
    simp [hkept id job hjob howner] at hdropped
  simp only [retainOwned, hnone, dropAll, List.foldl_nil]

theorem complaint_note (m : Manager) (owner : OwnerKey) (complaint : Option String) :
    (m.note owner complaint).2.complaints.get? owner = complaint := by
  cases complaint with
  | none => simp only [note, dropComplaint, Table.get?_erase, if_true]
  | some text =>
    simp only [note]
    split
    · assumption
    · simp only [Table.get?_insert, if_true]

theorem note_of_known {owner : OwnerKey} {complaint : Option String}
    (h : m.complaints.get? owner = complaint) : m.note owner complaint = (false, m) := by
  cases complaint with
  | none => simp only [note, dropComplaint, Table.erase_of_get?_eq_none h]
  | some text => simp only [note, h, if_true]

theorem complaints_dropAll (m : Manager) (ids : List String) :
    (m.dropAll ids).complaints = m.complaints := by
  induction ids generalizing m with
  | nil => rfl
  | cons id ids ih => exact ih (m.drop id)

theorem complaints_enter (m : Manager) (now : Instant) (job : Job) (change : QueueChange) :
    (m.enter now job change).2.complaints = m.complaints := by
  unfold enter
  split <;> rfl

/-- Only what is noted about a resource changes what is known about it. -/
theorem complaint_answer {c : ManagerCall} {owner : OwnerKey} {complaint : Option String}
    (h : m.complaints.get? owner = complaint)
    (hnote : ∀ o t, c = .note o t → o = owner ∧ t = complaint)
    (hdrop : ∀ o, c ≠ .dropComplaint o) (now : Instant) :
    (m.answer now c).2.complaints.get? owner = complaint := by
  cases c with
  | note o t =>
    obtain ⟨rfl, rfl⟩ := hnote o t rfl
    exact complaint_note m o t
  | dropComplaint o => exact absurd rfl (hdrop o)
  | createOrUpdate job =>
    rcases m.createOrUpdate_eq now job with ⟨change, heq⟩ | ⟨_, _, _, heq⟩
    · rw [answer, heq, complaints_enter, h]
    · rw [answer, heq, h]
  | delete id => exact h
  | deleteOwnedBy o => rw [answer, deleteOwnedBy, complaints_dropAll, h]
  | retainOwned o keep => rw [answer, retainOwned, complaints_dropAll, h]
  | resubmit id =>
    simp only [answer, resubmit]
    split
    · exact h
    · split <;> exact h
  | _ => exact h

end Manager

/-! ### Procedures that do nothing -/

/-- Whether a call neither writes a status nor publishes an event. -/
def DeskCall.Silent : DeskCall → Prop
  | .store (.patchStatus _ _ _) => False
  | .store (.publish _ _) => False
  | _ => True

namespace Procedure

variable {α β : Type} {w w' : World} {post : α → Prop} {p : Procedure Desk α}

/-- Whether a procedure that is carried out with nothing happening in between writes and publishes
nothing, leaves the world as it is and comes to a result with a property. -/
def Idles (w : World) (post : α → Prop) : Procedure Desk α → Prop
  | .done a => post a
  | .ask c next => c.Silent ∧
    ∀ reply w', w.Answers c reply w' → w' = w ∧ Idles w post (next reply)

theorem Idles.seq {f : α → Procedure Desk β} {post' : β → Prop} (h : p.Idles w post)
    (hf : ∀ a, post a → (f a).Idles w post') : (p >>= f).Idles w post' := by
  induction p with
  | done a => exact hf a h
  | ask c next ih =>
    refine ⟨h.1, fun reply w' hanswer => ?_⟩
    obtain ⟨hsame, hnext⟩ := h.2 reply w' hanswer
    exact ⟨hsame, ih reply hnext⟩

theorem Idles.weaken {post' : α → Prop} (h : p.Idles w post) (hpost : ∀ a, post a → post' a) :
    p.Idles w post' := by
  induction p with
  | done a => exact hpost a h
  | ask c next ih =>
    refine ⟨h.1, fun reply w' hanswer => ?_⟩
    obtain ⟨hsame, hnext⟩ := h.2 reply w' hanswer
    exact ⟨hsame, ih reply hnext⟩

/-- A step of the manager's own that leaves the manager as it is. -/
theorem idles_manager {c : ManagerCall} {f : c.Reply → Procedure Desk α}
    (hsame : ∀ now, (w.manager.answer now c).2 = w.manager)
    (hf : ∀ now, (f (w.manager.answer now c).1).Idles w post) :
    (Desk.ask (.manager c) >>= f).Idles w post := by
  refine ⟨trivial, fun reply w' hanswer => ?_⟩
  obtain ⟨now, rfl, rfl⟩ := hanswer
  exact ⟨by rw [hsame now], hf now⟩

theorem Idles.trace {deeds : List World.Deed} {q : Procedure Desk α} (h : p.Idles w post)
    (htrace : World.Trace (fun _ _ => False) w p deeds w' q) :
    w' = w ∧ ∀ d ∈ deeds, d.call.Silent := by
  induction htrace with
  | here w p => exact ⟨rfl, fun _ hd => absurd hd List.not_mem_nil⟩
  | between hstep _ _ => exact hstep.elim
  | ask hanswer _ ih =>
    obtain ⟨rfl, hnext⟩ := h.2 _ _ hanswer
    obtain ⟨hsame, hdeeds⟩ := ih hnext
    exact ⟨hsame, List.forall_mem_cons.2 ⟨h.1, hdeeds⟩⟩

end Procedure

/-! ### Resources at rest -/

namespace Reconcile

/-- Whether nothing is left to do about a declared job with a condition: it is known that it cannot
be built, or it has run and is gone, or it is queued as declared. -/
inductive Rests (m : Manager) (r : Resource) (j : JobSpec) (c : Condition) : Prop
  | refused (e : Fault) (hbuild : Job.build r j "" = .error e) (hstate : c.state = .failed)
      (hmessage : c.message = buildFailure j.name e)
  | ran (job : Job) (hbuild : Job.build r j "" = .ok job) (hnamed : c.jobId ≠ "")
      (hran : j.isRunOnce = true ∧ c.state.isTerminal = true)
      (habsent : m.queue.get? c.jobId = none)
  | queued (job queued : Job) (hbuild : Job.build r j "" = .ok job) (hnamed : c.jobId ≠ "")
      (hran : ¬(j.isRunOnce = true ∧ c.state.isTerminal = true))
      (hqueued : m.queue.get? c.jobId = some queued)
      (hdiffers : queued.differsFrom { job with id := c.jobId } = false)

end Reconcile

namespace World

/-- Whether nothing is left to do about a resource. -/
structure Resting (w : World) (key : OwnerKey) (r : Resource) (s : Status) : Prop where
  lockstep : w.manager.Lockstep
  resource : w.resources key = some r
  status : r.status = some s
  complaint : w.manager.complaints.get? key = r.spec.complaintText
  adopted : s.globalChange r.spec = false
  retained : ∀ c ∈ s.conditions, Reconcile.retains r.spec c = true
  jobs : ∀ j ∈ r.spec.jobs, ∃ c, s.conditions.find? (·.name == j.name) = some c ∧
    Reconcile.Rests w.manager r j c
  only : ∀ id job, w.manager.queue.get? id = some job → job.owner = key →
    id ∈ Reconcile.idsNamed s.conditions

end World

namespace Reconcile

variable {w : World} {key : OwnerKey} {r : Resource} {s : Status} {j : JobSpec} {d : Draft}

theorem idles_complain (h : w.Resting key r s) : (complain key r).Idles w fun _ => True := by
  have hknown : ∀ now, w.manager.answer now (.note key r.spec.complaintText) =
      (false, w.manager) := fun _ => Manager.note_of_known h.complaint
  refine Procedure.idles_manager (fun now => by rw [hknown now]) fun now => ?_
  rw [hknown now]
  trivial

theorem sift_of_retained {spec : Spec} {cs : List Condition}
    (h : ∀ c ∈ cs, retains spec c = true) : sift spec cs = pure (cs, []) := by
  induction cs with
  | nil => rfl
  | cons c cs ih =>
    obtain ⟨hc, hcs⟩ := List.forall_mem_cons.1 h
    obtain ⟨j, hfind, hunchanged⟩ := (Option.any_eq_true _ _).1 hc
    simp only [sift, hfind, hunchanged, if_true, ih hcs]
    rfl

theorem divide_of_resting (h : w.Resting key r s) :
    divide key r.spec s = pure (s.conditions, []) := by
  simp only [divide, h.adopted, Bool.false_eq_true, if_false, sift_of_retained h.retained]

theorem idles_submit {job queued : Job} (hqueued : w.manager.queue.get? job.id = some queued)
    (hdiffers : queued.differsFrom job = false) (now : Instant) :
    (submit j job now true d).Idles w (· = d) := by
  have hsame := w.manager.createOrUpdate_of_same hqueued hdiffers
  refine Procedure.idles_manager (fun now => by rw [Manager.answer, hsame]) fun now => ?_
  rw [Manager.answer, hsame]
  rfl

theorem idles_settleKept {job : Job} {c : Condition} (h : w.Resting key r s)
    (hbuild : Job.build r j "" = .ok job) (hrests : Rests w.manager r j c) (now : Instant) :
    (settleKept j job c now d).Idles w (· = d) := by
  unfold settleKept
  cases hrests with
  | refused e hrefused _ _ => exact absurd (hbuild.symm.trans hrefused) (by simp)
  | ran _ _ _ hran habsent =>
    rw [if_pos (by simpa using hran)]
    exact Procedure.idles_manager (fun _ => Manager.drop_of_absent h.lockstep habsent)
      fun _ => rfl
  | queued _ queued hbuild' _ hran hqueued hdiffers =>
    obtain rfl := Except.ok.inj (hbuild.symm.trans hbuild')
    rw [if_neg (by simpa using hran)]
    exact idles_submit hqueued hdiffers now

theorem idles_settleJob (h : w.Resting key r s) (hj : j ∈ r.spec.jobs) :
    (settleJob key r s.conditions j d).Idles w (· = d) := by
  obtain ⟨c, hfind, hrests⟩ := h.jobs j hj
  refine Procedure.idles_manager (fun _ => rfl) fun now => ?_
  simp only [hfind]
  cases hbuild : Job.build r j "" with
  | error e =>
    cases hrests with
    | refused e' hrefused hstate hmessage =>
      obtain rfl := Except.error.inj (hbuild.symm.trans hrefused)
      simp only [refuse, Option.any_some, hstate, hmessage, beq_self_eq_true, Bool.and_self,
        if_true]
      rfl
    | ran _ hbuild' _ _ _ => exact absurd (hbuild.symm.trans hbuild') (by simp)
    | queued _ _ hbuild' _ _ _ _ => exact absurd (hbuild.symm.trans hbuild') (by simp)
  | ok job =>
    have hnamed : c.jobId ≠ "" := by
      cases hrests with
      | refused _ hrefused _ _ => exact absurd (hbuild.symm.trans hrefused) (by simp)
      | ran _ _ hnamed _ _ => exact hnamed
      | queued _ _ _ hnamed _ _ _ => exact hnamed
    simp only [Option.filter_some, bne_iff_ne.2 hnamed, if_true]
    exact idles_settleKept h hbuild hrests _

theorem idles_settleJobs {js : List JobSpec} (h : w.Resting key r s)
    (hjs : ∀ j ∈ js, j ∈ r.spec.jobs) :
    (settleJobs key r s.conditions js d).Idles w (· = d) := by
  induction js with
  | nil => rfl
  | cons j js ih =>
    obtain ⟨hj, hjs⟩ := List.forall_mem_cons.1 hjs
    refine (idles_settleJob h hj).seq fun d' hd' => ?_
    exact hd' ▸ ih hjs

theorem idles_settleResource (h : w.Resting key r s) :
    (settleResource key r).Idles w (· = .ok ()) := by
  have hstatus : r.status.getD .initial = s := by rw [h.status, Option.getD_some]
  refine (idles_complain h).seq fun _ _ => ?_
  simp only [hstatus, divide_of_resting h]
  refine (idles_settleJobs h fun _ hj => hj).seq fun d hd => ?_
  subst hd
  refine Procedure.idles_manager (fun _ => Manager.retainOwned_of_kept h.lockstep h.only)
    fun _ => ?_
  simp only [h.adopted, bne_self_eq_false, Bool.or_self, Bool.false_eq_true, if_false]
  rfl

end Reconcile

theorem idles_reconcile {w : World} {key : OwnerKey} {r : Resource} {s : Status}
    (h : w.Resting key r s) : (reconcile key).Idles w fun _ => True := by
  refine ⟨trivial, fun reply w' hanswer => ?_⟩
  obtain ⟨rfl, hreply⟩ := hanswer
  refine ⟨rfl, ?_⟩
  rcases hreply with rfl | ⟨e, rfl⟩
  · rw [h.resource]
    exact (Reconcile.idles_settleResource h).weaken fun _ _ => trivial
  · trivial

namespace World

variable {w w' : World} {key : OwnerKey} {r : Resource}

/-- What may happen while a resource is reconciled: anything that leaves the resource, its queued
jobs and what is known about it as they are. -/
structure Apart (key : OwnerKey) (w w' : World) : Prop extends Aside key w w' where
  complaint : w'.manager.complaints.get? key = w.manager.complaints.get? key

/-- A call of a reconcile that works on a copy of a resource leaves the complaint about it known. -/
theorem complaint_of_answers {c : DeskCall} {reply : c.Reply}
    (h : w.manager.complaints.get? key = r.spec.complaintText)
    (hc : Reconcile.Working key r c) (hanswer : w.Answers c reply w') :
    w'.manager.complaints.get? key = r.spec.complaintText := by
  rcases answer_of_answers hanswer with hmanager | ⟨mc, now, rfl, hmanager⟩
  · rw [hmanager, h]
  · rw [hmanager]
    refine Manager.complaint_answer h (fun o t hnote => ?_) (fun o hdrop => ?_) now
    · subst hnote
      exact hc
    · subst hdrop
      exact hc

/-- Whether the complaint about a resource is known, and a procedure under way leaves it so. -/
def Noted (key : OwnerKey) (r : Resource) (w : World)
    (p : Procedure Desk (Except Fault Unit)) : Prop :=
  w.manager.complaints.get? key = r.spec.complaintText ∧
    p.Asks (Reconcile.Working key r) fun _ => True

theorem resource_of_apart (h : Relation.ReflTransGen (Apart key) w w') :
    w'.resources key = w.resources key := by
  induction h with
  | refl => rfl
  | tail _ hstep ih => exact hstep.resource.trans ih

theorem complaint_of_reconcile {deeds : List Deed}
    (htrace : Trace (Apart key) w (reconcile key) deeds w' (.done (.ok ())))
    (hresource : w.resources key = some r) :
    w'.manager.complaints.get? key = r.spec.complaintText := by
  obtain ⟨w₁, reply, w₂, rest, hsteps, hfetched, _, hrest⟩ := htrace.first
  obtain ⟨rfl, rfl | ⟨e, rfl⟩⟩ := hfetched
  · rw [resource_of_apart hsteps, hresource] at hrest
    obtain ⟨w₃, new, w₄, rest', _, hanswer, _, hrest⟩ := hrest.first
    have hknown : w₄.manager.complaints.get? key = r.spec.complaintText := by
      obtain ⟨now, _, rfl⟩ := hanswer
      exact Manager.complaint_note w₃.manager key r.spec.complaintText
    have hnoted : Noted key r w₄ _ := ⟨hknown, (Reconcile.asks_settleResource key r).2 new⟩
    -- Whatever the rest notes about the resource is the same complaint.
    have hend := hrest.invariant (fun _ _ _ h hstep => ⟨hstep.complaint.trans h.1, h.2⟩)
      (fun _ _ _ reply _ h hanswer => ⟨complaint_of_answers h.1 h.2.1 hanswer, h.2.2 reply⟩) hnoted
    exact hend.1.1
  · exact absurd hrest.of_done.2 (by simp)

theorem rests_of_settled {former : Status} {j : JobSpec} {c : Condition} (h : w.Good)
    (hkey : r.key = key) (hsettled : Reconcile.Settled r former j (w.view key).jobs c)
    (hsound : c.Sound w.issued r.key (some r.spec.target)) (hname : c.name = j.name) :
    Reconcile.Rests w.manager r j c := by
  cases hbuild : Job.build r j "" with
  | error e =>
    obtain ⟨target, e', htarget, hobstacle, hstate, hmessage⟩ :=
      hsound.failure (hsettled.unbuilt e hbuild)
    obtain rfl := Option.some.inj htarget
    have hdeclared := hsettled.declared
    simp only [Reconcile.unchanged, Bool.and_eq_true, beq_iff_eq] at hdeclared
    rw [hname, hdeclared.1.1, hdeclared.2] at hobstacle
    obtain rfl := Except.error.inj ((Job.build_error_iff.2 hobstacle).symm.trans hbuild)
    exact .refused e' hbuild hstate (hname ▸ hmessage)
  | ok job =>
    have hnamed := Reconcile.named_of_build hbuild hsound hname hsettled.declared
    have hissued := hsound.issued hnamed
    by_cases hran : Reconcile.HasRun r.spec former j
    · refine .ran job hbuild hnamed ((hsettled.ran job hbuild).1 hran) ?_
      have hnone := hsettled.run hran job hbuild
      cases hqueued : w.manager.queue.get? c.jobId with
      | none => rfl
      | some queued =>
        rw [hkey] at hissued
        exact absurd (hnone.symm.trans (h.jobs_of_issued hissued hqueued))
          (Option.some_ne_none _).symm
    · obtain ⟨queued, hqueued, hdiffers⟩ := hsettled.queued hran job hbuild
      exact .queued job queued hbuild hnamed (fun h => hran ((hsettled.ran job hbuild).2 h))
        (jobs_view_eq_some.1 hqueued).1 hdiffers

theorem resting_of_alike {deeds : List Deed} (hw : w.Good)
    (htrace : Trace (Apart key) w (reconcile key) deeds w' (.done (.ok ())))
    (hresource : w.resources key = some r) (halike : r.spec.Alike) :
    w'.Good ∧ ∃ r' s, w'.Resting key r' s ∧ r'.spec = r.spec := by
  obtain ⟨own, hexec⟩ := (htrace.mono fun _ _ h => h.toAside).exec
  obtain ⟨⟨hleaves, hadopts⟩, hgood, _⟩ :=
    hexec.ensures hw (keeps_reconcile key w.issued) (ensures_reconcile_alike hresource halike)
  obtain ⟨r', s, hr', hspec, hstatus, hresult⟩ := hleaves rfl
  have hkey := (hw.resources key r hresource).filed
  have hkey' := (hgood.resources key r' hr').filed
  refine ⟨hgood, r', s, ⟨hgood.lockstep, hr', hstatus, ?_, ?_, fun c hc => ?_, fun j hj => ?_, ?_⟩,
    hspec⟩
  · rw [hspec]
    exact complaint_of_reconcile htrace hresource
  · rw [hspec]
    exact hadopts rfl r' s hr' hstatus
  · obtain ⟨j, hj, hname⟩ := hresult.declared c hc
    obtain ⟨c', hc', hname', hsettled⟩ := hresult.settled j hj
    obtain rfl := eq_of_nodup hresult.distinct hc' hc (hname'.trans hname)
    have hfind := halike.find? hj
    rw [hname] at hfind
    simp only [Reconcile.retains, hspec, hfind, Option.any_some, hsettled.declared]
  · obtain ⟨c, hc, hname, hsettled⟩ := hresult.settled j (hspec ▸ hj)
    have hfind := find?_of_nodup hresult.distinct hc
    rw [hname] at hfind
    refine ⟨c, hfind, ?_⟩
    have hrests := rests_of_settled hgood hkey hsettled (hresult.sound c hc) hname
    have hbuild := Reconcile.build_congr (hkey'.trans hkey.symm) hspec j ""
    cases hrests with
    | refused e h hstate hmessage => exact .refused e (hbuild.trans h) hstate hmessage
    | ran job h hnamed hran habsent => exact .ran job (hbuild.trans h) hnamed hran habsent
    | queued job queued h hnamed hran hqueued hdiffers =>
      exact .queued job queued (hbuild.trans h) hnamed hran hqueued hdiffers
  · intro id job hjob howner
    exact Reconcile.mem_idsNamed.2 (hresult.only id job (jobs_view_eq_some.2 ⟨hjob, howner⟩))

theorem resting_of_reconcile {deeds : List Deed} (hw : w.Good)
    (htrace : Trace (Apart key) w (reconcile key) deeds w' (.done (.ok ())))
    (hresource : w.resources key = some r) (hnames : (r.spec.jobs.map JobSpec.name).Nodup) :
    ∃ r' s, w'.Resting key r' s ∧ r'.spec = r.spec :=
  (resting_of_alike hw htrace hresource (Spec.alike_of_nodup hnames)).2

/-- A second reconcile that follows one that has succeeded, with nothing else having happened in
between, does nothing: it writes no status, publishes no event and leaves the world, with its queue
and its agenda, as it is. -/
theorem reconcile_repeated {w'' : World} {first second : List Deed}
    {p : Procedure Desk (Except Fault Unit)} (hw : Reachable w)
    (hresource : w.resources key = some r) (hnames : (r.spec.jobs.map JobSpec.name).Nodup)
    (hfirst : Trace (Apart key) w (reconcile key) first w' (.done (.ok ())))
    (hsecond : Trace (fun _ _ => False) w' (reconcile key) second w'' p) :
    w'' = w' ∧ ∀ d ∈ second, d.call.Silent := by
  obtain ⟨r', s, hresting, _⟩ :=
    resting_of_reconcile (good_of_reachable hw) hfirst hresource hnames
  exact (idles_reconcile hresting).trace hsecond

theorem withWeb_repeated : ∃ first w' second,
    Trace (Apart web.key) withWeb (reconcile web.key) first w' (.done (.ok ())) ∧
      Trace (fun _ _ => False) w' (reconcile web.key) second w' (.done (.ok ())) ∧
        second ≠ [] ∧ ∀ d ∈ second, d.call.Silent := by
  have hreachable : Reachable withWeb := (Reachable.new Zone.utc 0).step (.put web "0" (by decide))
  have hsucceeds : succeeds ⟨0, 0⟩ (reconcile web.key) withWeb = true := by decide +kernel
  obtain ⟨w', hfirst⟩ := smooth?_of_succeeds hsucceeds
  have hsucceeds' : (smooth? ⟨0, 0⟩ (reconcile web.key) withWeb).any
      (fun result => succeeds ⟨60, 0⟩ (reconcile web.key) result.2) = true := by decide +kernel
  rw [hfirst, Option.any_some] at hsucceeds'
  obtain ⟨w'', hsecond⟩ := smooth?_of_succeeds hsucceeds'
  have htrace := trace_of_smooth? (Apart web.key) hfirst
  have htrace' := trace_of_smooth? (fun _ _ => False) hsecond
  obtain ⟨rfl, hsilent⟩ := reconcile_repeated hreachable
    (show withWeb.resources web.key = some web from rfl) (by decide) htrace htrace'
  refine ⟨_, w'', _, htrace, htrace', fun hnone => ?_, hsilent⟩
  rw [hnone] at htrace'
  obtain ⟨_, _, _, _, _, _, hdeeds, _⟩ := htrace'.first
  exact absurd hdeeds.symm (by simp)

end World

end CronScale
