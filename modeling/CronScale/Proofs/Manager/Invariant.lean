import CronScale.Proofs.Manager.Queue
import CronScale.Proofs.Manager.SoundReconcile
/-!
# What holds in every world

Whatever has happened, all jobs and statuses are sound, everything under way will keep them so, and
queue and agenda are in lockstep. This is the invariant `World.Good` of all worlds that can come
about.
-/

namespace CronScale

open CronScale.Calendar

namespace World

/-- What holds in every world. -/
structure Good (w : World) : Prop where
  unnamed : w.issued "" = none
  resources : ∀ key r, w.resources key = some r → r.Sound w.issued key
  lockstep : w.manager.Lockstep
  queued : ∀ id job, w.manager.queue.get? id = some job → job.Sound w.issued
  procedures : ∀ p ∈ w.procedures, p.Sound w.issued
  executing : ∀ job ∈ w.executing, job.Sound w.issued

theorem good_new (zone : Zone) (staleness : Int) : (new zone staleness).Good where
  unnamed := rfl
  resources := fun _ _ h => absurd h (Option.some_ne_none _).symm
  lockstep := Manager.lockstep_empty zone staleness
  queued := fun _ _ h => absurd h (Option.some_ne_none _).symm
  procedures := fun _ h => absurd h List.not_mem_nil
  executing := fun _ h => absurd h List.not_mem_nil

variable {w w' : World}

/-- A change of the manager's own that leaves no job queued that is not sound. -/
theorem Good.of_manager (h : w.Good) {m : Manager} (hlockstep : m.Lockstep)
    (hqueued : ∀ id job, m.queue.get? id = some job → job.Sound w.issued) :
    Good { w with manager := m } :=
  ⟨h.unnamed, h.resources, hlockstep, hqueued, h.procedures, h.executing⟩

/-- A write of a resource with a sound status. -/
theorem Good.write (h : w.Good) {key : OwnerKey} {r : Resource} {version : String}
    (hr : r.Sound w.issued key) : (w.write key r version).Good where
  unnamed := h.unnamed
  resources := by
    intro k r' hr'
    simp only [World.write] at hr'
    split at hr'
    · rename_i hk
      obtain rfl := Option.some.inj hr'
      rw [hk]
      exact ⟨hr.filed, hr.status⟩
    · exact h.resources k r' hr'
  lockstep := h.lockstep
  queued := h.queued
  procedures := h.procedures
  executing := h.executing

theorem Good.patched (h : w.Good) {key : OwnerKey} {s : Status} {version : Option String}
    (hs : s.Sound w.issued key) (hpatched : w.Patched key s version w') : w'.Good := by
  obtain ⟨r, v, hr, _, _, rfl⟩ := hpatched
  refine h.write ⟨(h.resources key r hr).filed, fun s' hs' => ?_⟩
  exact Option.some.inj hs' ▸ hs

theorem issued_le_issue {id : String} (hid : w.issued id = none) (owner : OwnerKey)
    (name : String) : w.issued.Le (w.issue id owner name).issued := by
  intro id' o ho
  simp only [issue]
  split
  · rename_i heq
    rw [heq, hid] at ho
    exact absurd ho (Option.some_ne_none o).symm
  · exact ho

theorem Good.issue (h : w.Good) {id : String} (hne : id ≠ "") (hid : w.issued id = none)
    (owner : OwnerKey) (name : String) : (w.issue id owner name).Good := by
  have hle := issued_le_issue hid owner name
  exact {
    unnamed := by simp only [World.issue, hne.symm, if_false, h.unnamed]
    resources := fun key r hr => (h.resources key r hr).mono hle
    lockstep := h.lockstep
    queued := fun id' job hjob => (h.queued id' job hjob).mono hle
    procedures := fun p hp => (h.procedures p hp).mono hle
    executing := fun job hjob => (h.executing job hjob).mono hle }

/-- Every call that a sound procedure makes keeps the invariant, and its answer is as the invariant
says. -/
theorem Good.answers (h : w.Good) {c : DeskCall} {reply : c.Reply} (hc : c.Sound w.issued)
    (hanswer : w.Answers c reply w') :
    w'.Good ∧ w.issued.Le w'.issued ∧ c.Fits w'.issued reply := by
  cases c with
  | store c =>
    cases c with
    | fetch key =>
      obtain ⟨rfl, hreply⟩ := hanswer
      refine ⟨h, .refl _, fun r hr => ?_⟩
      rcases hreply with hreply | ⟨e, hreply⟩
      · rw [hreply] at hr
        exact h.resources key r (Except.ok.inj hr)
      · rw [hreply] at hr
        exact absurd hr (by simp)
    | patchStatus key s version =>
      rcases hanswer with ⟨_, hpatched⟩ | ⟨e, _, ⟨rfl, _⟩ | ⟨_, hpatched⟩⟩
      · exact ⟨h.patched hc hpatched, hpatched.issued ▸ .refl _, trivial⟩
      · exact ⟨h, .refl _, trivial⟩
      · exact ⟨h.patched hc hpatched, hpatched.issued ▸ .refl _, trivial⟩
    | publish r e =>
      obtain rfl : w' = w := hanswer
      exact ⟨h, .refl _, trivial⟩
  | manager c =>
    obtain ⟨now, rfl, rfl⟩ := hanswer
    refine ⟨h.of_manager (h.lockstep.answer now c) fun id job hjob => ?_, .refl _, ?_⟩
    · rcases Manager.queued_answer hjob with hjob | rfl
      · exact h.queued id job hjob
      · exact hc
    · cases c with
      | queuedId owner name =>
        intro id hid
        obtain ⟨job, hjob, rfl, rfl⟩ := Manager.queuedId_eq_some h.lockstep.keyed hid
        have hsound := h.queued id job hjob
        rw [← h.lockstep.keyed id job hjob]
        exact ⟨hsound.named, hsound.issued⟩
      | snapshot =>
        intro job hjob
        obtain ⟨id, hid⟩ := Table.mem_values.1 hjob
        exact h.queued id job hid
      | _ => trivial
  | freshId owner name =>
    obtain ⟨hne, hid, rfl⟩ := hanswer
    refine ⟨h.issue hne hid owner name, issued_le_issue hid owner name, hne, ?_⟩
    exact if_pos rfl
  | publishCounts counts =>
    obtain rfl : w' = w := hanswer
    exact ⟨h, .refl _, trivial⟩
  | startSweep =>
    obtain rfl : w' = _ := hanswer
    refine ⟨⟨h.unnamed, h.resources, h.lockstep, h.queued, ?_, h.executing⟩, .refl _, trivial⟩
    exact List.forall_mem_cons.2 ⟨(sound_sweep _).task, h.procedures⟩
  | startReruns jobs =>
    obtain rfl : w' = _ := hanswer
    exact ⟨⟨h.unnamed, h.resources, h.lockstep, h.queued, h.procedures, h.executing⟩, .refl _,
      trivial⟩

/-- The caller is sound, and so is the world without it. -/
theorem Good.caller (h : w.Good) {ps qs : List (Procedure Desk Unit)} {p : Procedure Desk Unit}
    (hask : w.procedures = ps ++ p :: qs) :
    p.Sound w.issued ∧ Good { w with procedures := ps ++ qs } := by
  have hprocedures : ∀ p' ∈ ps ++ p :: qs, p'.Sound w.issued := hask ▸ h.procedures
  refine ⟨hprocedures p (List.mem_append_right _ List.mem_cons_self), h.unnamed, h.resources,
    h.lockstep, h.queued, fun p' hp' => ?_, h.executing⟩
  exact hprocedures p' (((List.sublist_cons_self p qs).append_left ps).subset hp')

theorem sound_of_begun {p : Procedure Desk Unit} (h : Begun p) (i : Issued) : p.Sound i := by
  rcases h with ⟨key, rfl⟩ | rfl | ⟨e, rfl⟩
  · exact (sound_reconcile key i).task
  · exact (sound_sweep i).task
  · exact sound_watchDeletions i e

/-- Whatever happens keeps the invariant, and ids never change hands. -/
theorem Good.step (h : w.Good) (hstep : Step w w') : w'.Good ∧ w.issued.Le w'.issued := by
  cases hstep with
  | put r version hfresh =>
    refine ⟨h.write ⟨rfl, fun s hs => ?_⟩, .refl _⟩
    obtain ⟨stored, hstored, hs⟩ := Option.bind_eq_some_iff.1 hs
    exact (h.resources r.key stored hstored).status s hs
  | delete key =>
    refine ⟨⟨h.unnamed, fun k r hr => ?_, h.lockstep, h.queued, h.procedures, h.executing⟩,
      .refl _⟩
    simp only [World.delete] at hr
    split at hr
    · exact absurd hr (Option.some_ne_none r).symm
    · exact h.resources k r hr
  | begin p hp =>
    refine ⟨⟨h.unnamed, h.resources, h.lockstep, h.queued, ?_, h.executing⟩, .refl _⟩
    exact List.forall_mem_cons.2 ⟨sound_of_begun hp _, h.procedures⟩
  | @call w' ps qs c next reply hask hanswer =>
    obtain ⟨hcaller, hothers⟩ := h.caller hask
    obtain ⟨hgood, hle, hfits⟩ := hothers.answers hcaller.1 hanswer
    refine ⟨⟨hgood.unnamed, hgood.resources, hgood.lockstep, hgood.queued, ?_, hgood.executing⟩,
      hle⟩
    exact List.forall_mem_cons.2 ⟨hcaller.2 _ reply hle hfits, hgood.procedures⟩
  | turn now =>
    refine ⟨⟨h.unnamed, h.resources, ?_, h.queued, h.procedures, fun job hjob => ?_⟩, .refl _⟩
    · exact h.lockstep.congr rfl fun id => Engine.scheduled?_turn _ now id
    · rcases List.mem_append.1 hjob with hjob | hjob
      · exact h.executing job hjob
      · obtain ⟨id, entry, hentry, rfl⟩ := Engine.mem_turn hjob
        exact h.queued id entry.job (h.lockstep.entries id entry hentry).1
  | start now =>
    exact ⟨h.of_manager (h.lockstep.congr rfl fun _ => rfl) h.queued, .refl _⟩
  | stop =>
    exact ⟨h.of_manager (h.lockstep.congr rfl fun _ => rfl) h.queued, .refl _⟩
  | @finish js ks job settings outcome hjob =>
    have hexecuting : ∀ job' ∈ js ++ job :: ks, job'.Sound w.issued := hjob ▸ h.executing
    refine ⟨⟨h.unnamed, h.resources, h.lockstep, h.queued, ?_, fun job' hjob' => ?_⟩, .refl _⟩
    · refine List.forall_mem_cons.2 ⟨sound_record settings (hexecuting job ?_) outcome,
        h.procedures⟩
      exact List.mem_append_right _ List.mem_cons_self
    · exact hexecuting job' (((List.sublist_cons_self job ks).append_left js).subset hjob')
  | @lose js ks job hjob =>
    have hexecuting : ∀ job' ∈ js ++ job :: ks, job'.Sound w.issued := hjob ▸ h.executing
    refine ⟨⟨h.unnamed, h.resources, h.lockstep, h.queued, h.procedures, fun job' hjob' => ?_⟩,
      .refl _⟩
    exact hexecuting job' (((List.sublist_cons_self job ks).append_left js).subset hjob')
  | restart zone staleness =>
    refine ⟨⟨h.unnamed, h.resources, Manager.lockstep_empty zone staleness, ?_, ?_, ?_⟩, .refl _⟩
    · exact fun _ _ hjob => absurd hjob (Option.some_ne_none _).symm
    · exact fun _ hp => absurd hp List.not_mem_nil
    · exact fun _ hjob => absurd hjob List.not_mem_nil

/-- The invariant holds in every world that can come about. -/
theorem good_of_reachable (h : Reachable w) : w.Good := by
  induction h with
  | new zone staleness => exact good_new zone staleness
  | step _ hstep ih => exact (ih.step hstep).1

end World

end CronScale
