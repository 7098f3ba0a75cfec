import CronScale.Proofs.Manager.Happenings
import CronScale.Proofs.Manager.Missing
import CronScale.Proofs.Manager.View
/-!
# Beside the reconciles of a resource

Whatever else is under way puts no job of the resource in (`World.holds_of_elsewhere`), and takes
out all of them if it was about to do so (`World.clears_of_beside`). But for calls that take jobs of
the resource out or write its status, it leaves the resource and its queued jobs as they are
(`World.aside_of_gentle`).
-/

namespace CronScale

/-- Whether the home of the resources does not fail to tell of a resource. -/
def DeskCall.Told (key : OwnerKey) : (c : DeskCall) → c.Reply → Prop
  | .store (.fetch k), reply => k = key → ∃ r, reply = .ok r
  | _, _ => True

/-- What happens beside the reconciles of a resource, if it is neither written nor deleted and the
manager is not set up anew. -/
def Happening.Beside (key : OwnerKey) : Happening → Prop
  | .put r => r.key ≠ key
  | .delete k => k ≠ key
  | .begin p => p ≠ World.task (reconcile key)
  | .call c reply => c.Told key reply
  | .restart => False
  | _ => True

/-- The same, whether or not the resource can be asked for. -/
def Happening.Elsewhere (key : OwnerKey) : Happening → Prop
  | .put r => r.key ≠ key
  | .delete k => k ≠ key
  | .begin p => p ≠ World.task (reconcile key)
  | .restart => False
  | _ => True

theorem Happening.Beside.elsewhere {key : OwnerKey} {happening : Happening}
    (h : happening.Beside key) : happening.Elsewhere key := by
  cases happening with
  | call c reply => trivial
  | _ => exact h

/-- Whether a call takes out some of the jobs that are held for a resource, or writes its status. -/
def DeskCall.Disturbs (key : OwnerKey) (held : String → Prop) : DeskCall → Prop
  | .store (.patchStatus k _ _) => k = key
  | .manager (.delete id) => held id
  | .manager (.deleteOwnedBy owner) => owner = key ∧ ∃ id, held id
  | .manager (.retainOwned owner keep) => owner = key ∧ ∃ id, held id ∧ id ∉ keep
  | _ => False

/-- What happens beside the reconciles without such a call. -/
def Happening.Gentle (key : OwnerKey) (held : String → Prop) : Happening → Prop
  | .call c reply => c.Told key reply ∧ ¬c.Disturbs key held
  | happening => happening.Beside key

theorem Happening.Gentle.beside {key : OwnerKey} {held : String → Prop} {happening : Happening}
    (h : happening.Gentle key held) : happening.Beside key := by
  cases happening with
  | call c reply => exact h.1
  | _ => exact h

namespace World

variable {w w' : World} {key : OwnerKey}

/-- What is under way asks for no job of a resource to be put in, if it spares the resource. -/
theorem not_adds_of_spares {ps qs : List (Procedure Desk Unit)} {c : DeskCall}
    {next : c.Reply → Procedure Desk Unit} (hspares : ∀ p ∈ w.procedures, p.Spares key w.issued)
    (hask : w.procedures = ps ++ .ask c next :: qs) (reply : c.Reply) : ¬c.Adds key reply :=
  have hcaller : (Procedure.ask c next).Spares key w.issued :=
    hspares _ (hask ▸ List.mem_append_right _ List.mem_cons_self)
  hcaller.1 reply

/-- What happens beside the reconciles of a resource puts no job of it in. -/
theorem holds_of_elsewhere (h : w.Good) (hspares : ∀ p ∈ w.procedures, p.Spares key w.issued)
    (helsewhere : Amidst (Happening.Elsewhere key) w w') {id : String} (hid : w'.Holds key id) :
    w.Holds key id := by
  obtain ⟨happening, htest, hhappens⟩ := helsewhere
  cases hhappens with
  | call next reply hask hanswer =>
    obtain ⟨_, hothers⟩ := h.caller hask
    have hadds := not_adds_of_spares hspares hask reply
    exact (holds_of_answers hothers.lockstep hadds hanswer hid).left
  | restart zone staleness => exact htest.elim
  | _ => exact hid

/-- It neither makes the resource nor takes it away, either. -/
theorem missing_iff_of_elsewhere (helsewhere : Amidst (Happening.Elsewhere key) w w') :
    w'.resources key = none ↔ w.resources key = none := by
  obtain ⟨happening, htest, hhappens⟩ := helsewhere
  cases hhappens with
  | put r version hfresh =>
    have hother : ¬key = r.key := fun heq => htest heq.symm
    rw [show (w.write r.key _ version).resources key = w.resources key from if_neg hother]
  | delete k =>
    have hother : ¬key = k := fun heq => htest heq.symm
    rw [show (w.delete k).resources key = w.resources key from if_neg hother]
  | @call _ w₁ ps qs c next reply hask hanswer =>
    have hsame : w₁.resources key = none ↔
        World.resources { w with procedures := ps ++ qs } key = none :=
      (stored_of_answers hanswer).1
    exact hsame
  | _ => exact Iff.rfl

/-- Nothing that puts a job of the resource in is begun. -/
theorem spares_of_elsewhere (h : w.Good) (hspares : ∀ p ∈ w.procedures, p.Spares key w.issued)
    (helsewhere : Amidst (Happening.Elsewhere key) w w') :
    ∀ p ∈ w'.procedures, p.Spares key w'.issued := by
  obtain ⟨happening, htest, hhappens⟩ := helsewhere
  cases hhappens with
  | begin p hp => exact List.forall_mem_cons.2 ⟨spares_of_begun hp htest _, hspares⟩
  | @call _ w' ps qs c next reply hask hanswer =>
    obtain ⟨hsound, hothers⟩ := h.caller hask
    obtain ⟨_, hle, hfits⟩ := hothers.answers hsound.1 hanswer
    have hprocedures : ∀ p ∈ ps ++ Procedure.ask c next :: qs, p.Spares key w.issued :=
      hask ▸ hspares
    have hcaller := hprocedures _ (List.mem_append_right _ List.mem_cons_self)
    have hleft : ∀ p ∈ ps ++ qs, p.Spares key w'.issued := fun p hp =>
      (hprocedures p (((List.sublist_cons_self _ qs).append_left ps).subset hp)).mono hle
    refine List.forall_mem_cons.2 ⟨hcaller.2 _ reply hle hfits, ?_⟩
    exact forall_procedures_of_answers hanswer (spares_sweep _).task hleft
  | finish job settings outcome hjob =>
    exact List.forall_mem_cons.2 ⟨spares_record settings job outcome _, hspares⟩
  | restart zone staleness => exact htest.elim
  | _ => exact hspares

/-- A call that neither puts jobs of the resource in nor disturbs those that are queued leaves them
as they are. -/
theorem queued_iff_of_answers (h : w.Good) {c : DeskCall} {reply : c.Reply}
    (hsound : c.Sound w.issued) (hanswer : w.Answers c reply w') (hadds : ¬c.Adds key reply)
    (hdisturbs : ¬c.Disturbs key (w.Holds key)) {id : String} {job : Job}
    (howner : job.owner = key) :
    w'.manager.queue.get? id = some job ↔ w.manager.queue.get? id = some job := by
  rcases answer_of_answers hanswer with hsame | ⟨mc, now, rfl, hmanager⟩
  · rw [hsame]
  have hunchanged : ∀ job', mc = .createOrUpdate job' → job'.owner = key →
      w'.manager = w.manager := by
    rintro job' rfl howner'
    obtain ⟨now', rfl, rfl⟩ := hanswer
    have hreply : (w.manager.createOrUpdate now' job').1 = .ok .unchanged :=
      Classical.byContradiction fun hne => hadds ⟨howner', hne⟩
    exact Manager.unchanged_of_createOrUpdate hreply
  constructor
  · intro hjob
    rw [hmanager] at hjob
    rcases Manager.queued_answer hjob with hqueued | rfl
    · exact hqueued
    · rw [← hmanager, hunchanged job rfl howner] at hjob
      exact hjob
  · intro hjob
    have hheld : w.Holds key id := ⟨job, hjob, howner⟩
    by_cases hconcerns : w.manager.Concerns id mc
    · cases mc with
      | createOrUpdate job' =>
        -- An id is given out once, so the other job is one of the resource too.
        have hissued := (h.queued id job hjob).issued
        rw [h.lockstep.keyed id job hjob, ← show job'.id = id from hconcerns,
          Job.Sound.issued hsound] at hissued
        have howner' := (Prod.mk.inj (Option.some.inj hissued)).1.trans howner
        rw [hunchanged job' rfl howner']
        exact hjob
      | delete id' => exact absurd (show w.Holds key id' from hconcerns ▸ hheld) hdisturbs
      | deleteOwnedBy owner =>
        obtain ⟨job', hjob', howner'⟩ := hconcerns
        obtain rfl := Option.some.inj (hjob.symm.trans hjob')
        exact absurd ⟨howner'.symm.trans howner, id, hheld⟩ hdisturbs
      | retainOwned owner keep =>
        obtain ⟨job', hjob', howner', hleft⟩ := hconcerns
        obtain rfl := Option.some.inj (hjob.symm.trans hjob')
        exact absurd ⟨howner'.symm.trans howner, id, hheld, hleft⟩ hdisturbs
      | _ => exact hconcerns.elim
    · rw [hmanager, Manager.get?_answer h.lockstep.keyed hconcerns now]
      exact hjob

/-- What disturbs nothing leaves the resource and its queued jobs as they are. -/
theorem aside_of_gentle (h : w.Good) (hspares : ∀ p ∈ w.procedures, p.Spares key w.issued)
    (hgentle : Amidst (Happening.Gentle key (w.Holds key)) w w') : Aside key w w' := by
  obtain ⟨happening, htest, hhappens⟩ := hgentle
  have hstep := hhappens.step
  cases hhappens with
  | put r version hfresh =>
    have hother : ¬key = r.key := fun heq => htest heq.symm
    exact ⟨hstep, if_neg hother, fun _ _ _ => Iff.rfl⟩
  | delete k =>
    have hother : ¬key = k := fun heq => htest heq.symm
    exact ⟨hstep, if_neg hother, fun _ _ _ => Iff.rfl⟩
  | @call _ w₁ ps qs c next reply hask hanswer =>
    obtain ⟨hsound, hothers⟩ := h.caller hask
    have hadds := not_adds_of_spares hspares hask reply
    have hpatch : ∀ s version, c ≠ .store (.patchStatus key s version) := by
      rintro s version rfl
      exact htest.2 rfl
    have hresource : w₁.resources key = World.resources { w with procedures := ps ++ qs } key :=
      resources_of_answers hanswer hpatch
    refine ⟨hstep, hresource, fun id job howner => ?_⟩
    exact queued_iff_of_answers hothers hsound.1 hanswer hadds htest.2 howner
  | restart zone staleness => exact absurd htest id
  | _ => exact ⟨hstep, rfl, fun _ _ _ => Iff.rfl⟩

theorem misses_of_answers {c : DeskCall} {reply : c.Reply} (hmissing : w.resources key = none)
    (htold : c.Told key reply) (hanswer : w.Answers c reply w') : c.Misses key reply := by
  cases c with
  | store c =>
    cases c with
    | fetch k =>
      rintro rfl
      obtain ⟨r, rfl⟩ := htold rfl
      rcases hanswer.2 with hreply | ⟨e, hreply⟩
      · rw [hreply, hmissing]
      · exact absurd hreply (by simp)
    | _ => trivial
  | _ => trivial

/-- What is about to take out all jobs of the missing resource does so still. -/
theorem clears_of_beside (h : w.Good) (hspares : ∀ p ∈ w.procedures, p.Spares key w.issued)
    (hmissing : w.resources key = none) (hbeside : Amidst (Happening.Beside key) w w')
    (hclears : ∃ p ∈ w.procedures, p.Clears key (w.Holds key)) :
    ∃ p ∈ w'.procedures, p.Clears key (w'.Holds key) := by
  have helsewhere := hbeside.mono fun _ => Happening.Beside.elsewhere
  have hholds : ∀ id, w'.Holds key id → w.Holds key id :=
    fun id hid => holds_of_elsewhere h hspares helsewhere hid
  obtain ⟨p, hp, hclears⟩ := hclears
  have hafter := hclears.mono hholds
  obtain ⟨happening, htest, hhappens⟩ := hbeside
  cases hhappens with
  | begin p' hp' => exact ⟨p, List.mem_cons_of_mem _ hp, hafter⟩
  | @call _ w' ps qs c next reply hask hanswer =>
    obtain ⟨_, hothers⟩ := h.caller hask
    have hadds := not_adds_of_spares hspares hask reply
    have hleft : p ∈ ps ++ qs → p ∈ w'.procedures := mem_procedures_of_answers hanswer
    rw [hask] at hp
    rcases List.mem_append.1 hp with hp | hp
    · exact ⟨p, List.mem_cons_of_mem _ (hleft (List.mem_append_left _ hp)), hafter⟩
    rcases List.mem_cons.1 hp with rfl | hp
    · have hwithout : World.resources { w with procedures := ps ++ qs } key = none := hmissing
      have hnext : (next reply).Clears key (c.Remains key (w.Holds key) reply) :=
        hclears reply (misses_of_answers hwithout htest hanswer)
      refine ⟨next reply, List.mem_cons_self, hnext.mono fun id hid => ?_⟩
      exact holds_of_answers hothers.lockstep hadds hanswer hid
    · exact ⟨p, List.mem_cons_of_mem _ (hleft (List.mem_append_right _ hp)), hafter⟩
  | finish job settings outcome hjob => exact ⟨p, List.mem_cons_of_mem _ hp, hafter⟩
  | restart zone staleness => exact htest.elim
  | _ => exact ⟨p, hp, hafter⟩

end World

end CronScale
