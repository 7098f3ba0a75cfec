import CronScale.Proofs.Manager.Lockstep
/-!
# What the steps of the manager's own do to single jobs

A step changes what queue and agenda say about the ids it is about and about no others.
-/

namespace CronScale

open CronScale.Calendar

/-- What is fired is in the agenda. -/
theorem Engine.mem_turn {e : Engine Job} {now : Int} {job : Job} (h : job ∈ (e.turn now).1) :
    ∃ id entry, e.agenda.entries.get? id = some entry ∧ entry.job = job := by
  have hdispatch : ∀ job ∈ (e.dispatch now).1,
      ∃ id entry, e.agenda.entries.get? id = some entry ∧ entry.job = job := by
    intro job hjob
    obtain ⟨entry, hentry, rfl⟩ := List.mem_map.1 hjob
    obtain ⟨id, hid⟩ := Table.mem_values.1 (List.mem_filter.1 hentry).1
    exact ⟨id, entry, hid, rfl⟩
  unfold turn at h
  split at h
  · exact absurd h List.not_mem_nil
  · split at h
    · exact hdispatch job h
    · exact absurd h List.not_mem_nil

theorem Job.differsFrom_self (job : Job) : job.differsFrom job = false := by
  simp [Job.differsFrom, Job.agrees]

namespace Manager

/-- Whether two managers say the same about an id, in the queue and in the agenda. -/
def SameAt (m m' : Manager) (id : String) : Prop :=
  m'.queue.get? id = m.queue.get? id ∧
    m'.engine.agenda.entries.get? id = m.engine.agenda.entries.get? id

theorem SameAt.refl (m : Manager) (id : String) : m.SameAt m id := ⟨rfl, rfl⟩

theorem SameAt.trans {m m' m'' : Manager} {id : String} (h : m.SameAt m' id)
    (h' : m'.SameAt m'' id) : m.SameAt m'' id :=
  ⟨h'.1.trans h.1, h'.2.trans h.2⟩

theorem sameAt_of_update {m : Manager} {now : Instant} {job : Job} {engine : Engine Job}
    (h : m.engine.update now job = .ok engine) {id : String} (hid : id ≠ job.id) :
    engine.agenda.entries.get? id = m.engine.agenda.entries.get? id := by
  simp only [Engine.update, Engine.add, Agenda.add, Schedulable.schedule, Schedulable.id] at h
  obtain ⟨a, ha, rfl⟩ := map_eq_ok.1 h
  split at ha
  · exact absurd ha (by simp)
  · obtain rfl := Except.ok.inj ha
    simp only [Table.get?_insert, hid, if_false]

theorem sameAt_enter {m : Manager} {now : Instant} {job : Job} {change : QueueChange} {id : String}
    (hid : id ≠ job.id) : m.SameAt (m.enter now job change).2 id := by
  rcases enter_eq m now job change with
    ⟨e, _, heq⟩ | ⟨engine, hupdate, heq⟩
  · rw [heq]
    exact .refl m id
  · rw [heq]
    exact ⟨by simp only [Table.get?_insert, hid, if_false], sameAt_of_update hupdate hid⟩

theorem sameAt_createOrUpdate {m : Manager} {now : Instant} {job : Job} {id : String}
    (hid : id ≠ job.id) : m.SameAt (m.createOrUpdate now job).2 id := by
  rcases m.createOrUpdate_eq now job with ⟨change, heq⟩ | ⟨_, _, _, heq⟩
  · rw [heq]
    exact sameAt_enter hid
  · rw [heq]
    exact .refl m id

theorem createOrUpdate_of_same {m : Manager} {job queued : Job}
    (hqueued : m.queue.get? job.id = some queued) (hdiffers : queued.differsFrom job = false)
    (now : Instant) :
    m.createOrUpdate now job = (.ok .unchanged, m) := by
  simp only [createOrUpdate, hqueued, hdiffers, Bool.false_eq_true, if_false]

/-- A job that was brought in is queued, or one from which it does not differ. -/
theorem queued_createOrUpdate {m : Manager} {now : Instant} {job : Job} {change : QueueChange}
    (h : (m.createOrUpdate now job).1 = .ok change) :
    ∃ queued, (m.createOrUpdate now job).2.queue.get? job.id = some queued ∧
      queued.differsFrom job = false := by
  rcases m.createOrUpdate_eq now job with ⟨change', heq⟩ | ⟨queued, hqueued, hdiffers, heq⟩
  · rw [heq] at h ⊢
    rcases m.enter_eq now job change' with ⟨e, _, heq'⟩ | ⟨engine, _, heq'⟩
    · rw [heq'] at h
      exact absurd h (by simp)
    · rw [heq']
      exact ⟨job, by simp only [Table.get?_insert, if_true], job.differsFrom_self⟩
  · rw [heq]
    exact ⟨queued, hqueued, hdiffers⟩

/-- A job that was not brought in has a schedule that cannot be read. -/
theorem unreadable_of_createOrUpdate {m : Manager} {now : Instant} {job : Job} {e : Fault}
    (h : (m.createOrUpdate now job).1 = .error e) :
    ∃ cause, Schedule.parse job.schedule = .error cause := by
  rcases m.createOrUpdate_eq now job with ⟨change, heq⟩ | ⟨_, _, _, heq⟩
  · rcases m.enter_eq now job change with ⟨cause, hparse, _⟩ | ⟨engine, _, heq'⟩
    · exact ⟨cause, hparse⟩
    · rw [heq, heq'] at h
      exact absurd h (by simp)
  · rw [heq] at h
    exact absurd h (by simp)

theorem get?_drop (m : Manager) (id id' : String) :
    (m.drop id).queue.get? id' = if id' = id then none else m.queue.get? id' :=
  Table.get?_erase _ _ _

theorem sameAt_drop {m : Manager} {id id' : String} (hid : id' ≠ id) :
    m.SameAt (m.drop id) id' := by
  refine ⟨by rw [get?_drop, if_neg hid], ?_⟩
  simp only [drop, Engine.remove]
  split
  · simp only [Agenda.remove, Table.get?_erase, hid, if_false]
  · rfl

theorem get?_dropAll (m : Manager) (ids : List String) (id : String) :
    (m.dropAll ids).queue.get? id = if id ∈ ids then none else m.queue.get? id := by
  induction ids generalizing m with
  | nil => rfl
  | cons i ids ih =>
    rw [dropAll, List.foldl_cons, ← dropAll, ih, get?_drop]
    by_cases heq : id = i
    · subst heq
      simp only [if_true, ite_self, List.mem_cons, true_or]
    · simp only [heq, if_false, List.mem_cons, false_or]

theorem sameAt_dropAll {m : Manager} {ids : List String} {id : String} (hid : id ∉ ids) :
    m.SameAt (m.dropAll ids) id := by
  induction ids generalizing m with
  | nil => exact .refl m id
  | cons i ids ih =>
    rw [List.mem_cons, not_or] at hid
    exact (sameAt_drop hid.1).trans (ih hid.2)

/-- Where every job is queued under its id, the ids of a resource are those of its queued jobs. -/
theorem mem_idsOf {m : Manager} (h : ∀ id job, m.queue.get? id = some job → job.id = id)
    {owner : OwnerKey} {test : String → Bool} {id : String} :
    id ∈ m.idsOf owner test ↔
      ∃ job, m.queue.get? id = some job ∧ job.owner = owner ∧ test id = true := by
  simp only [idsOf, List.mem_map, List.mem_filter, Table.mem_values, Bool.and_eq_true,
    decide_eq_true_eq]
  constructor
  · rintro ⟨job, ⟨⟨k, hk⟩, howner, htest⟩, rfl⟩
    exact ⟨job, h k job hk ▸ hk, howner, htest⟩
  · rintro ⟨job, hjob, howner, htest⟩
    refine ⟨job, ⟨⟨id, hjob⟩, howner, ?_⟩, h id job hjob⟩
    rw [h id job hjob]
    exact htest

/-- When the jobs of a resource that pass a test are dropped, those that do not are left. -/
theorem get?_dropAll_idsOf {m : Manager} (h : ∀ id job, m.queue.get? id = some job → job.id = id)
    (owner : OwnerKey) (test : String → Bool) (id : String) :
    ((m.dropAll (m.idsOf owner test)).queue.get? id).filter (·.owner = owner) =
      if test id then none else (m.queue.get? id).filter (·.owner = owner) := by
  rw [get?_dropAll]
  by_cases hmem : id ∈ m.idsOf owner test
  · obtain ⟨_, _, _, htest⟩ := (mem_idsOf h).1 hmem
    simp only [hmem, htest, if_true, Option.filter_none]
  · simp only [hmem, if_false]
    split
    · rename_i htest
      rw [Option.filter_eq_none_iff]
      intro job hjob howner
      exact hmem ((mem_idsOf h).2 ⟨job, hjob, of_decide_eq_true howner, htest⟩)
    · rfl

/-- The id found for a name of a resource is that of such a job. -/
theorem queuedId_eq_some {m : Manager} (h : ∀ id job, m.queue.get? id = some job → job.id = id)
    {owner : OwnerKey} {name id : String} (hid : m.queuedId owner name = some id) :
    ∃ job, m.queue.get? id = some job ∧ job.owner = owner ∧ job.name = name := by
  obtain ⟨job, hfind, rfl⟩ := Option.map_eq_some_iff.1 hid
  obtain ⟨k, hk⟩ := Table.mem_values.1 (List.mem_of_find?_eq_some hfind)
  have htest := List.find?_some hfind
  simp only [Bool.and_eq_true, decide_eq_true_eq, beq_iff_eq] at htest
  exact ⟨job, h k job hk ▸ hk, htest.1, htest.2⟩

/-- Where a job of a name of a resource is queued, an id is found. -/
theorem queuedId_ne_none {m : Manager} {owner : OwnerKey} {name id : String} {job : Job}
    (hjob : m.queue.get? id = some job) (howner : job.owner = owner) (hname : job.name = name) :
    m.queuedId owner name ≠ none := by
  intro hnone
  have hfind := List.find?_eq_none.1 (Option.map_eq_none_iff.1 hnone) job
    (Table.mem_values.2 ⟨id, hjob⟩)
  simp [howner, hname] at hfind

theorem queued_of_createOrUpdate {m : Manager} {now : Instant} {job job' : Job} {id : String}
    (h : (m.createOrUpdate now job').2.queue.get? id = some job) :
    m.queue.get? id = some job ∨ job' = job := by
  rcases m.createOrUpdate_eq now job' with ⟨change, heq⟩ | ⟨_, _, _, heq⟩
  · rw [heq] at h
    rcases m.enter_eq now job' change with ⟨e, _, heq'⟩ | ⟨engine, _, heq'⟩
    · rw [heq'] at h
      exact .inl h
    · rw [heq'] at h
      simp only [Table.get?_insert] at h
      split at h
      · exact .inr (Option.some.inj h)
      · exact .inl h
  · rw [heq] at h
    exact .inl h

/-- After a step of the manager's own, a queued job was queued before or is the one that was to be
queued. -/
theorem queued_answer {m : Manager} {now : Instant} {c : ManagerCall} {id : String} {job : Job}
    (h : (m.answer now c).2.queue.get? id = some job) :
    m.queue.get? id = some job ∨ c = .createOrUpdate job := by
  have hdrop : ∀ ids, (m.dropAll ids).queue.get? id = some job → m.queue.get? id = some job := by
    intro ids h
    rw [get?_dropAll] at h
    split at h
    · exact absurd h (Option.some_ne_none job).symm
    · exact h
  cases c with
  | clock => exact .inl h
  | note owner complaint =>
    obtain ⟨complaints, heq⟩ := m.note_eq owner complaint
    rw [answer, heq] at h
    exact .inl h
  | dropComplaint owner => exact .inl h
  | createOrUpdate job' => exact (queued_of_createOrUpdate h).imp_right fun heq => by rw [heq]
  | delete id' => exact .inl (hdrop [id'] h)
  | deleteOwnedBy owner => exact .inl (hdrop _ h)
  | retainOwned owner keep => exact .inl (hdrop _ h)
  | queuedId owner name => exact .inl h
  | snapshot => exact .inl h
  | find id' => exact .inl h
  | resubmit id' =>
    simp only [answer, resubmit] at h
    split at h
    · exact .inl h
    · split at h <;> exact .inl h
  | jobCount => exact .inl h

/-- Whether a step of the manager's own may change what is queued under an id. -/
def Concerns (m : Manager) (id : String) : ManagerCall → Prop
  | .createOrUpdate job => job.id = id
  | .delete id' => id' = id
  | .deleteOwnedBy owner => ∃ job, m.queue.get? id = some job ∧ job.owner = owner
  | .retainOwned owner keep => ∃ job, m.queue.get? id = some job ∧ job.owner = owner ∧ id ∉ keep
  | _ => False

/-- What is queued under an id that a step does not concern stays as it is. -/
theorem get?_answer {m : Manager} {c : ManagerCall} {id : String}
    (h : ∀ id job, m.queue.get? id = some job → job.id = id) (hc : ¬m.Concerns id c)
    (now : Instant) : (m.answer now c).2.queue.get? id = m.queue.get? id := by
  have hdropped : ∀ owner test, (∀ job, m.queue.get? id = some job → job.owner = owner →
      test id = true → False) → id ∉ m.idsOf owner test := by
    intro owner test hnot hmem
    obtain ⟨job, hjob, howner, htest⟩ := (mem_idsOf h).1 hmem
    exact hnot job hjob howner htest
  cases c with
  | note owner complaint =>
    obtain ⟨complaints, heq⟩ := m.note_eq owner complaint
    rw [answer, heq]
  | createOrUpdate job => exact (sameAt_createOrUpdate fun heq => hc heq.symm).1
  | delete id' => exact (sameAt_drop fun heq => hc heq.symm).1
  | deleteOwnedBy owner =>
    exact (sameAt_dropAll (hdropped _ _ fun job hjob howner _ => hc ⟨job, hjob, howner⟩)).1
  | retainOwned owner keep =>
    refine (sameAt_dropAll (hdropped _ _ fun job hjob howner htest => hc ⟨job, hjob, howner, ?_⟩)).1
    rwa [Bool.not_eq_true', ← Bool.not_eq_true, List.contains_iff_mem] at htest
  | resubmit id' =>
    simp only [answer, resubmit]
    split
    · rfl
    · split <;> rfl
  | _ => rfl

end Manager

end CronScale
