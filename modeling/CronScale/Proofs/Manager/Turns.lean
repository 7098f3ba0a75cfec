import CronScale.Proofs.Manager.AtOnce
import CronScale.Proofs.Manager.Collecting
/-!
# The turn of one job

A reconcile that nothing comes between divides the conditions of the last status, gives every
declared job its turn and drops what no condition names. Seen from the jobs of one name of a
resource, two worlds may be the same whatever else they hold (`World.SameFor`): what is done for
jobs of other names leaves a world the same in this sense. So what a reconcile leaves of a job is
what the turn of that job has left (`World.exists_turn`).
-/

namespace CronScale

open CronScale.Calendar

namespace Table

variable {κ υ : Type} [DecidableEq κ] {t : Table κ υ}

/-- Of values that lie under their own keys, an erasure takes out those with the key. -/
theorem values_erase {f : υ → κ} (h : ∀ k v, t.get? k = some v → f v = k) (k : κ) :
    (t.erase k).values = t.values.filter fun v => decide (f v ≠ k) := by
  simp only [values, erase, filter, List.filter_map]
  refine congrArg (List.map Prod.snd) (List.filter_congr fun r hr => ?_)
  rw [Function.comp_apply, h r.1 r.2 (get?_eq_some_iff.2 hr)]

theorem filter_replaceRow {p : υ → Bool} {k : κ} {v : υ} {rows : List (κ × υ)} (hv : p v = false)
    (hrows : ∀ r ∈ rows, r.1 = k → p r.2 = false) :
    ((replaceRow k v rows).map Prod.snd).filter p = (rows.map Prod.snd).filter p := by
  induction rows with
  | nil => rfl
  | cons r rows ih =>
    obtain ⟨hr, hrows⟩ := List.forall_mem_cons.1 hrows
    have ih := ih hrows
    by_cases hk : r.1 = k
    · simpa [replaceRow, hk, hv, hr hk] using ih
    · rw [replaceRow, List.map_cons, if_neg hk, ← replaceRow, List.map_cons, List.map_cons,
        List.filter_cons, List.filter_cons, ih]

/-- A write changes nothing about the values that pass a test if neither the new value does nor
the one in whose place it comes. -/
theorem filter_values_insert {p : υ → Bool} {k : κ} {v : υ} (hv : p v = false)
    (hold : ∀ u, t.get? k = some u → p u = false) :
    (t.insert k v).values.filter p = t.values.filter p := by
  unfold insert values
  split
  · refine filter_replaceRow hv fun r hr hk => hold r.2 ?_
    exact get?_eq_some_iff.2 (hk ▸ hr)
  · simp [hv]

end Table

namespace Manager

variable {m m' : Manager} {owner : OwnerKey} {name : String}

/-- The queued jobs of a name of a resource, in the order of the queue. -/
def jobsNamed (m : Manager) (owner : OwnerKey) (name : String) : List Job :=
  m.queue.values.filter fun j => j.owner = owner && j.name == name

theorem queuedId_eq (m : Manager) (owner : OwnerKey) (name : String) :
    m.queuedId owner name = (m.jobsNamed owner name).head?.map Job.id := by
  rw [jobsNamed, List.head?_filter, queuedId]

theorem mem_jobsNamed {job : Job} : job ∈ m.jobsNamed owner name ↔
    (∃ id, m.queue.get? id = some job) ∧ job.owner = owner ∧ job.name = name := by
  simp [jobsNamed, Table.mem_values]

theorem jobsNamed_drop (h : m.Lockstep) (owner : OwnerKey) (name id : String) :
    (m.drop id).jobsNamed owner name =
      (m.jobsNamed owner name).filter fun job => decide (job.id ≠ id) := by
  simp only [jobsNamed, drop, Table.values_erase h.keyed, List.filter_filter]
  exact List.filter_congr fun job _ => Bool.and_comm _ _

theorem jobsNamed_dropAll (h : m.Lockstep) (owner : OwnerKey) (name : String) (ids : List String) :
    (m.dropAll ids).jobsNamed owner name =
      (m.jobsNamed owner name).filter fun job => decide (job.id ∉ ids) := by
  induction ids generalizing m with
  | nil => simp [dropAll]
  | cons id ids ih =>
    rw [dropAll, List.foldl_cons, ← dropAll, ih (h.drop id), jobsNamed_drop h, List.filter_filter]
    refine List.filter_congr fun job _ => ?_
    simp [Bool.and_comm]

/-- What is brought in or replaced under another name changes nothing about the jobs of a name. -/
theorem jobsNamed_createOrUpdate {job : Job} (hjob : ¬(job.owner = owner ∧ job.name = name))
    (hold : ∀ queued, m.queue.get? job.id = some queued →
      ¬(queued.owner = owner ∧ queued.name = name)) (now : Instant) :
    (m.createOrUpdate now job).2.jobsNamed owner name = m.jobsNamed owner name := by
  rcases m.createOrUpdate_eq now job with ⟨change, heq⟩ | ⟨_, _, _, heq⟩
  · rw [heq]
    rcases m.enter_eq now job change with ⟨_, _, heq'⟩ | ⟨_, _, heq'⟩
    · rw [heq']
    · rw [heq']
      exact Table.filter_values_insert (by simpa using hjob) fun queued hqueued => by
        simpa using hold queued hqueued
  · rw [heq]

theorem entries_dropAll (m : Manager) (ids : List String) (id : String) :
    (m.dropAll ids).engine.agenda.entries.get? id =
      if id ∈ ids then none else m.engine.agenda.entries.get? id := by
  induction ids generalizing m with
  | nil => rfl
  | cons i ids ih =>
    rw [dropAll, List.foldl_cons, ← dropAll, ih]
    by_cases hid : id = i
    · subst hid
      simp [drop, Engine.get?_remove]
    · simp [hid, (sameAt_drop (m := m) hid).2]

theorem zone_dropAll (m : Manager) (ids : List String) :
    (m.dropAll ids).engine.agenda.zone = m.engine.agenda.zone := by
  induction ids generalizing m with
  | nil => rfl
  | cons id ids ih => exact (ih (m.drop id)).trans (Survey.rules_drop m id).1

/-- A job with a schedule that can be read is entered as if it had never fired. -/
theorem enter_of_parse (m : Manager) (now : Instant) {job : Job} {s : Schedule}
    (hparse : Schedule.parse job.schedule = .ok s) (change : QueueChange) :
    m.enter now job change = (.ok change, { m with
      queue := m.queue.insert job.id job
      engine := { m.engine with
        agenda := { m.engine.agenda with
          entries := m.engine.agenda.entries.insert job.id
            ⟨job, job.schedule, s, none, s.nextAfter m.engine.agenda.zone now⟩ }
        woken := true } }) := by
  have hupdate : m.engine.update now job = .ok _ := Engine.update_eq_ok.2 ⟨s, hparse, rfl⟩
  simp only [enter, hupdate]

theorem zone_createOrUpdate (m : Manager) (now : Instant) (job : Job) :
    (m.createOrUpdate now job).2.engine.agenda.zone = m.engine.agenda.zone := by
  rcases m.createOrUpdate_eq now job with ⟨change, heq⟩ | ⟨_, _, _, heq⟩
  · rw [heq]
    rcases m.enter_eq now job change with ⟨_, _, heq'⟩ | ⟨engine, hupdate, heq'⟩
    · rw [heq']
    · rw [heq']
      obtain ⟨s, _, rfl⟩ := Engine.update_eq_ok.1 hupdate
      rfl
  · rw [heq]

end Manager

namespace World

variable {w w' w'' : World} {key : OwnerKey} {name : String}

/-- Whether two worlds are the same as far as the jobs of a name of a resource are concerned. -/
structure SameFor (key : OwnerKey) (name : String) (w w' : World) : Prop where
  zone : w'.manager.engine.agenda.zone = w.manager.engine.agenda.zone
  jobs : w'.manager.jobsNamed key name = w.manager.jobsNamed key name
  issued : ∀ id, w'.issued id = some (key, name) ↔ w.issued id = some (key, name)
  same : ∀ id, w.issued id = some (key, name) → w.manager.SameAt w'.manager id

theorem SameFor.refl (key : OwnerKey) (name : String) (w : World) : w.SameFor key name w :=
  ⟨rfl, rfl, fun _ => .rfl, fun id _ => .refl _ id⟩

theorem SameFor.trans (h : w.SameFor key name w') (h' : w'.SameFor key name w'') :
    w.SameFor key name w'' where
  zone := h'.zone.trans h.zone
  jobs := h'.jobs.trans h.jobs
  issued := fun id => (h'.issued id).trans (h.issued id)
  same := fun id hid => (h.same id hid).trans (h'.same id ((h.issued id).2 hid))

theorem SameFor.symm (h : w.SameFor key name w') : w'.SameFor key name w where
  zone := h.zone.symm
  jobs := h.jobs.symm
  issued := fun id => (h.issued id).symm
  same := fun id hid =>
    ⟨(h.same id ((h.issued id).1 hid)).1.symm, (h.same id ((h.issued id).1 hid)).2.symm⟩

/-- The jobs of a name are queued under ids that were given out for the name. -/
theorem Good.issued_of_jobsNamed (hw : w.Good) {job : Job}
    (hjob : job ∈ w.manager.jobsNamed key name) : w.issued job.id = some (key, name) := by
  obtain ⟨⟨id, hid⟩, rfl, rfl⟩ := Manager.mem_jobsNamed.1 hjob
  exact (hw.queued id job hid).issued

/-- Worlds that are the same for a name stay so if the same ids of the name are dropped. -/
theorem SameFor.dropAll (h : w.SameFor key name w') (hw : w.Good) (hw' : w'.Good)
    {ids ids' : List String}
    (hids : ∀ id, w.issued id = some (key, name) → (id ∈ ids ↔ id ∈ ids')) :
    SameFor key name { w with manager := w.manager.dropAll ids }
      { w' with manager := w'.manager.dropAll ids' } where
  zone := by rw [Manager.zone_dropAll, Manager.zone_dropAll, h.zone]
  jobs := by
    rw [Manager.jobsNamed_dropAll hw.lockstep, Manager.jobsNamed_dropAll hw'.lockstep, h.jobs]
    refine List.filter_congr fun job hjob => ?_
    exact decide_eq_decide.2 (not_congr (hids job.id (hw.issued_of_jobsNamed hjob)).symm)
  issued := h.issued
  same := by
    intro id hid
    obtain ⟨hqueue, hentries⟩ := h.same id hid
    refine ⟨?_, ?_⟩
    · simp only [Manager.get?_dropAll, hids id hid, hqueue]
    · simp only [Manager.entries_dropAll, hids id hid, hentries]

end World

/-- What may be asked for in the turns of jobs of other names, for ids that are given out. -/
def DeskCall.Beside (key : OwnerKey) (name : String) (i : Issued) : DeskCall → Prop
  | .manager (.createOrUpdate job) => job.owner = key ∧ job.name ≠ name
  | .manager (.delete id) => id ≠ "" → ∃ name', i id = some (key, name') ∧ name' ≠ name
  | .manager (.deleteOwnedBy _) => False
  | .manager (.retainOwned _ _) => False
  | .manager (.resubmit _) => False
  | .freshId _ name' => name' ≠ name
  | _ => True

theorem DeskCall.Beside.mono {key : OwnerKey} {name : String} {i i' : Issued} {c : DeskCall}
    (h : c.Beside key name i) (hle : i.Le i') : c.Beside key name i' := by
  cases c with
  | manager c =>
    cases c with
    | delete id =>
      intro hne
      obtain ⟨name', hid, hname⟩ := h hne
      exact ⟨name', hle _ _ hid, hname⟩
    | _ => exact h
  | _ => exact h

namespace World

variable {w w' w'' : World} {key : OwnerKey} {name : String}

theorem sameFor_of_manager (hmanager : w'.manager = w.manager) (hissued : w'.issued = w.issued) :
    w.SameFor key name w' where
  zone := by rw [hmanager]
  jobs := by rw [hmanager]
  issued := fun id => by rw [hissued]
  same := fun id _ => hmanager ▸ .refl _ id

theorem sameFor_createOrUpdate (hw : w.Good) {job : Job} (hjob : job.Sound w.issued)
    (hname : job.name ≠ name) (now : Instant) :
    SameFor key name w { w with manager := (w.manager.createOrUpdate now job).2 } where
  zone := w.manager.zone_createOrUpdate now job
  jobs := by
    refine Manager.jobsNamed_createOrUpdate (fun h => hname h.2) (fun queued hqueued h => ?_) now
    have hissued := (hw.queued _ queued hqueued).issued
    rw [hw.lockstep.keyed _ queued hqueued, hjob.issued, h.2] at hissued
    exact hname (Prod.mk.inj (Option.some.inj hissued)).2
  issued := fun _ => .rfl
  same := by
    intro id hid
    refine Manager.sameAt_createOrUpdate fun heq => ?_
    rw [heq, hjob.issued] at hid
    exact hname (Prod.mk.inj (Option.some.inj hid)).2

/-- What is asked for in the turns of other jobs leaves a world the same for a name. -/
theorem sameFor_answers (hw : w.Good) {c : DeskCall} {reply : c.Reply} (hsound : c.Sound w.issued)
    (hbeside : c.Beside key name w.issued) (hanswer : w.Answers c reply w') :
    w.SameFor key name w' := by
  cases c with
  | store c =>
    refine sameFor_of_manager (manager_of_answers hanswer (by simp)) ?_
    cases c with
    | fetch k => exact congrArg World.issued hanswer.1
    | patchStatus k s version =>
      rcases hanswer with ⟨_, hpatched⟩ | ⟨_, _, ⟨rfl, _⟩ | ⟨_, hpatched⟩⟩
      · exact hpatched.issued
      · rfl
      · exact hpatched.issued
    | publish r e => exact congrArg World.issued hanswer
  | manager c =>
    obtain ⟨now, _, rfl⟩ := hanswer
    cases c with
    | note owner complaint =>
      obtain ⟨complaints, heq⟩ := w.manager.note_eq owner complaint
      rw [Manager.answer, heq]
      exact ⟨rfl, rfl, fun _ => .rfl, fun _ _ => ⟨rfl, rfl⟩⟩
    | createOrUpdate job => exact sameFor_createOrUpdate hw hsound hbeside.2 now
    | delete id =>
      have hnot : ∀ id', w.issued id' = some (key, name) → (id' ∈ [] ↔ id' ∈ [id]) := by
        intro id' hid'
        refine iff_of_false List.not_mem_nil fun hmem => ?_
        obtain rfl := List.mem_singleton.1 hmem
        have hne : id' ≠ "" := by
          rintro rfl
          exact absurd (hw.unnamed.symm.trans hid') (Option.some_ne_none _).symm
        obtain ⟨name', hissued, hname⟩ := hbeside hne
        exact hname (Prod.mk.inj (Option.some.inj (hissued.symm.trans hid'))).2
      exact (SameFor.refl key name w).dropAll hw hw hnot
    | deleteOwnedBy owner => exact hbeside.elim
    | retainOwned owner keep => exact hbeside.elim
    | resubmit id => exact hbeside.elim
    | _ => exact ⟨rfl, rfl, fun _ => .rfl, fun _ _ => ⟨rfl, rfl⟩⟩
  | freshId owner name' =>
    obtain ⟨_, hid, rfl⟩ := hanswer
    refine ⟨rfl, rfl, fun id' => ?_, fun _ _ => .refl _ _⟩
    simp only [issue]
    split
    · rename_i heq
      rw [heq, hid]
      exact iff_of_false (fun h => hbeside (Prod.mk.inj (Option.some.inj h)).2) (by simp)
    · exact .rfl
  | publishCounts counts =>
    obtain rfl : w' = w := hanswer
    exact .refl key name w'
  | startSweep =>
    obtain rfl : w' = _ := hanswer
    exact sameFor_of_manager rfl rfl
  | startReruns jobs =>
    obtain rfl : w' = _ := hanswer
    exact sameFor_of_manager rfl rfl

end World

/-- What is done in the turns of other jobs leaves a world the same for a name. -/
theorem Procedure.AtOnce.sameFor {α : Type} {now : Instant} {w w' : World} {p : Procedure Desk α}
    {a : α} {key : OwnerKey} {name : String} {i : Issued} {post : α → Prop}
    {kept : Issued → α → Prop} (h : p.AtOnce now w w' a) (hw : w.Good)
    (hkeeps : p.Keeps (Reconcile.Allowed key) kept w.issued) (hle : i.Le w.issued)
    (hbeside : p.Asks (DeskCall.Beside key name i) post) : w.SameFor key name w' := by
  induction p generalizing w with
  | done b =>
    obtain ⟨rfl, rfl⟩ := h
    exact .refl key name w'
  | ask c next ih =>
    obtain ⟨reply, w₁, hanswer, hrest⟩ := h
    have hanswer := hanswer.answers.1
    obtain ⟨hgood, hle₁, hfits⟩ := hw.answers hkeeps.1.1 hanswer
    refine (World.sameFor_answers hw hkeeps.1.1 (hbeside.1.mono hle) hanswer).trans ?_
    exact ih reply hrest hgood (hkeeps.2 _ reply hle₁ hfits) (hle.trans hle₁) (hbeside.2 reply)

/-! ### Dividing the conditions -/

theorem Manager.dropAll_append (m : Manager) (ids ids' : List String) :
    m.dropAll (ids ++ ids') = (m.dropAll ids).dropAll ids' :=
  List.foldl_append

namespace Reconcile

variable {now : Instant} {w w' : World} {key : OwnerKey} {name : String} {spec spec' : Spec}
  {s : Status}

theorem atOnce_dropJob {c : Condition} {u : Unit} (h : (dropJob c).AtOnce now w w' u) :
    w' = { w with manager := w.manager.dropAll (idsNamed [c]) } := by
  unfold dropJob at h
  split at h
  · rename_i hid
    rw [show idsNamed [c] = [] by simp [idsNamed, hid]]
    exact h.1
  · rename_i hid
    rw [show idsNamed [c] = [c.jobId] by simp [idsNamed, hid]]
    exact (Procedure.atOnce_manager.1 h).1

theorem idsNamed_cons (c : Condition) (cs : List Condition) :
    idsNamed (c :: cs) = idsNamed [c] ++ idsNamed cs := by
  simp [idsNamed, ← List.filter_append]

/-- Of the conditions of a status the jobs of those are dropped that are not retained. -/
theorem atOnce_sift {cs : List Condition} {p : List Condition × List (String × String)}
    (h : (sift spec cs).AtOnce now w w' p) :
    w' = { w with manager := w.manager.dropAll (idsNamed (cs.filter (!retains spec ·))) } := by
  induction cs generalizing w p with
  | nil => exact h.1
  | cons c cs ih =>
    unfold sift at h
    split at h
    · rename_i j hfind
      split at h
      · rename_i hunchanged
        obtain ⟨q, w₁, hrest, rfl, _⟩ := Procedure.atOnce_seq.1 h
        rw [List.filter_cons_of_neg (by simp [retains, hfind, hunchanged])]
        exact ih hrest
      · rename_i hchanged
        obtain ⟨_, w₁, hdropped, hrest⟩ := Procedure.atOnce_seq.1 h
        obtain ⟨q, w₂, hrest, rfl, _⟩ := Procedure.atOnce_seq.1 hrest
        obtain rfl := atOnce_dropJob hdropped
        rw [List.filter_cons_of_pos (by simp [retains, hfind, hchanged]), idsNamed_cons,
          Manager.dropAll_append]
        exact ih hrest
    · rename_i hfind
      obtain ⟨_, w₁, hdropped, hrest⟩ := Procedure.atOnce_seq.1 h
      obtain rfl := atOnce_dropJob hdropped
      rw [List.filter_cons_of_pos (by simp [retains, hfind]), idsNamed_cons,
        Manager.dropAll_append]
      exact ih hrest

/-- The ids of the jobs that are dropped when the conditions of a status are divided. -/
def droppedIds (m : Manager) (key : OwnerKey) (spec : Spec) (s : Status) : List String :=
  if s.globalChange spec then m.idsOf key fun _ => true
  else idsNamed (s.conditions.filter (!retains spec ·))

theorem atOnce_divide {p : List Condition × List (String × String)}
    (h : (divide key spec s).AtOnce now w w' p) : p = (retained spec s, putBy spec s) ∧
      w' = { w with manager := w.manager.dropAll (droppedIds w.manager key spec s) } := by
  have hasks : (divide key spec s).Asks (fun _ => True) (· = (retained spec s, putBy spec s)) :=
    asks_divide (fun _ _ => trivial) trivial spec
  refine ⟨h.result hasks, ?_⟩
  unfold divide at h
  unfold droppedIds
  by_cases hglobal : s.globalChange spec = true
  · rw [if_pos hglobal] at h ⊢
    exact (Procedure.atOnce_manager.1 h).1
  · rw [if_neg hglobal] at h ⊢
    exact atOnce_sift h

/-- Whether two specifications are the same for a name, given the last status: the same has changed
for all jobs, and the condition of the name stands to both in the same way. -/
structure SameOf (name : String) (s : Status) (spec spec' : Spec) : Prop where
  global : s.globalChange spec' = s.globalChange spec
  declared : spec'.jobs.find? (·.name == name) = spec.jobs.find? (·.name == name)

theorem SameOf.retains (h : SameOf name s spec spec') {c : Condition} (hc : c.name = name) :
    Reconcile.retains spec' c = Reconcile.retains spec c := by
  simp only [Reconcile.retains, hc, h.declared]

theorem SameOf.find?_retained (h : SameOf name s spec spec') :
    (retained spec' s).find? (·.name == name) = (retained spec s).find? (·.name == name) := by
  unfold retained
  rw [h.global]
  split
  · rfl
  · rw [← List.head?_filter, ← List.head?_filter, List.filter_filter, List.filter_filter]
    have hsame : ∀ c : Condition, (c.name == name && Reconcile.retains spec' c) =
        (c.name == name && Reconcile.retains spec c) := by
      intro c
      by_cases hc : c.name = name
      · rw [h.retains hc]
      · rw [beq_eq_false_iff_ne.2 hc, Bool.false_and, Bool.false_and]
    simp only [hsame]

theorem SameOf.reusableId (h : SameOf name s spec spec') :
    Reconcile.reusableId (putBy spec' s) name = Reconcile.reusableId (putBy spec s) name := by
  unfold putBy
  rw [h.global]
  split
  · rfl
  · simp only [Reconcile.reusableId, List.filter_map, List.filter_filter]
    have hsame : ∀ c : Condition, (c.name == name && redeclares spec' c) =
        (c.name == name && redeclares spec c) := by
      intro c
      by_cases hc : c.name = name
      · simp only [redeclares, hc, h.declared]
      · rw [beq_eq_false_iff_ne.2 hc, Bool.false_and, Bool.false_and]
    simp only [Function.comp_def, hsame]

/-- Worlds that are the same for a name stay so when the conditions of the same status are divided
for specifications that are the same for the name. -/
theorem SameOf.dropped (h : SameOf name s spec spec') (hsame : w.SameFor key name w')
    (hw : w.Good) (hw' : w'.Good) (hs : s.Sound w.issued key) :
    World.SameFor key name
      { w with manager := w.manager.dropAll (droppedIds w.manager key spec s) }
      { w' with manager := w'.manager.dropAll (droppedIds w'.manager key spec' s) } := by
  refine hsame.dropAll hw hw' fun id hid => ?_
  unfold droppedIds
  rw [h.global]
  split
  · rw [Manager.mem_idsOf hw.lockstep.keyed, Manager.mem_idsOf hw'.lockstep.keyed,
      (hsame.same id hid).1]
  · simp only [mem_idsNamed, List.mem_filter, Bool.not_eq_true']
    refine exists_congr fun c => ?_
    constructor
    · rintro ⟨⟨hc, hdropped⟩, rfl, hne⟩
      have hname := (hs.conditions c hc).issued hne
      rw [hid] at hname
      exact ⟨⟨hc, h.retains (Prod.mk.inj (Option.some.inj hname)).2.symm ▸ hdropped⟩, rfl, hne⟩
    · rintro ⟨⟨hc, hdropped⟩, rfl, hne⟩
      have hname := (hs.conditions c hc).issued hne
      rw [hid] at hname
      exact ⟨⟨hc, h.retains (Prod.mk.inj (Option.some.inj hname)).2.symm ▸ hdropped⟩, rfl, hne⟩

/-! ### Before and after the turn of a job -/

/-- How far a reconcile has come: the world, and what it will write. -/
structure Stage where
  world : World
  draft : Draft

structure Stage.Sound (r : Resource) (g : Stage) : Prop where
  good : g.world.Good
  draft : DraftSound g.world.issued r g.draft

/-- Whether two stages are the same as far as the jobs of a name of a resource are concerned. -/
structure Stage.Same (key : OwnerKey) (name : String) (g g' : Stage) : Prop where
  world : g.world.SameFor key name g'.world
  found : g'.draft.conditions.find? (·.name == name) = g.draft.conditions.find? (·.name == name)
  reusable : reusableId g'.draft.reusable name = reusableId g.draft.reusable name

theorem Stage.Same.refl (key : OwnerKey) (name : String) (g : Stage) : g.Same key name g :=
  ⟨.refl key name g.world, rfl, rfl⟩

theorem Stage.Same.trans {g g' g'' : Stage} (h : g.Same key name g') (h' : g'.Same key name g'') :
    g.Same key name g'' :=
  ⟨h.world.trans h'.world, h'.found.trans h.found, h'.reusable.trans h.reusable⟩

variable {r : Resource} {left : List Condition} {j : JobSpec} {js : List JobSpec} {g g' : Stage}

theorem Stage.Sound.settleJob (h : g.Sound r) (hkey : r.key = key)
    (hleft : ∀ c ∈ left, c.Sound g.world.issued r.key (some r.spec.target))
    (hturn : (settleJob key r left j g.draft).AtOnce now g.world g'.world g'.draft) :
    g'.Sound r ∧ g.world.issued.Le g'.world.issued := by
  obtain ⟨hdraft, hgood, hle⟩ :=
    hturn.keeps h.good (keeps_settleJob hkey hleft h.draft j) fun _ _ hc => hc.1
  exact ⟨⟨hgood, hdraft⟩, hle⟩

/-- The turn of a job of another name. -/
theorem same_settleJob (h : g.Sound r) (hkey : r.key = key)
    (hleft : ∀ c ∈ left, c.Sound g.world.issued r.key (some r.spec.target)) (hne : name ≠ j.name)
    (hturn : (settleJob key r left j g.draft).AtOnce now g.world g'.world g'.draft) :
    g.Same key name g' := by
  have hasks : (Reconcile.settleJob key r left j g.draft).Asks
      (DeskCall.Beside key name g.world.issued) (Alters j.name g.draft) := by
    refine asks_settleJob_alters trivial trivial hne.symm (fun kept hmem hname hnamed => ?_)
      fun job howner hname => ⟨howner.trans hkey, fun heq => hne (heq.symm.trans hname)⟩
    refine ⟨j.name, ?_, hne.symm⟩
    rw [(hleft kept hmem).issued hnamed, hkey, hname]
  have halters := hturn.result hasks
  exact ⟨hturn.sameFor h.good (keeps_settleJob hkey hleft h.draft j) (.refl _) hasks,
    halters.others name hne, halters.reusable name hne⟩

/-- The turn of a job among those of others: what comes before and after it is the same for the name
of the job. -/
structure Turn (now : Instant) (key : OwnerKey) (r : Resource) (left : List Condition)
    (j : JobSpec) (start before after last : Stage) : Prop where
  first : start.Same key j.name before
  grown : start.world.issued.Le before.world.issued
  sound : before.Sound r
  turn : (settleJob key r left j before.draft).AtOnce now before.world after.world after.draft
  settled : after.Sound r
  rest : after.Same key j.name last
  last : last.Sound r

theorem atOnce_settleJobs_cons :
    (settleJobs key r left (j :: js) g.draft).AtOnce now g.world g'.world g'.draft ↔
      ∃ g₁ : Stage, (settleJob key r left j g.draft).AtOnce now g.world g₁.world g₁.draft ∧
        (settleJobs key r left js g₁.draft).AtOnce now g₁.world g'.world g'.draft := by
  refine Procedure.atOnce_seq.trans ⟨?_, ?_⟩
  · rintro ⟨d₁, w₁, hfirst, hrest⟩
    exact ⟨⟨w₁, d₁⟩, hfirst, hrest⟩
  · rintro ⟨⟨w₁, d₁⟩, hfirst, hrest⟩
    exact ⟨d₁, w₁, hfirst, hrest⟩

/-- The turns of jobs of other names. -/
theorem same_settleJobs (h : g.Sound r) (hkey : r.key = key)
    (hleft : ∀ c ∈ left, c.Sound g.world.issued r.key (some r.spec.target))
    (hjs : ∀ j ∈ js, name ≠ j.name)
    (hturns : (settleJobs key r left js g.draft).AtOnce now g.world g'.world g'.draft) :
    g.Same key name g' ∧ g'.Sound r := by
  induction js generalizing g with
  | nil =>
    obtain ⟨world, draft⟩ := g
    obtain ⟨rfl, rfl⟩ := hturns
    exact ⟨.refl key name _, h⟩
  | cons j js ih =>
    obtain ⟨hj, hjs⟩ := List.forall_mem_cons.1 hjs
    obtain ⟨g₁, hfirst, hrest⟩ := atOnce_settleJobs_cons.1 hturns
    obtain ⟨hsound₁, hle⟩ := h.settleJob hkey hleft hfirst
    obtain ⟨hsame, hsound⟩ := ih hsound₁ (fun c hc => (hleft c hc).mono hle) hjs hrest
    exact ⟨(same_settleJob h hkey hleft hj hfirst).trans hsame, hsound⟩

/-- Each job of a list has its turn. -/
theorem exists_turn_of_mem (h : g.Sound r) (hkey : r.key = key)
    (hleft : ∀ c ∈ left, c.Sound g.world.issued r.key (some r.spec.target))
    (hnames : (js.map JobSpec.name).Nodup) (hj : j ∈ js)
    (hturns : (settleJobs key r left js g.draft).AtOnce now g.world g'.world g'.draft) :
    ∃ before after, Turn now key r left j g before after g' := by
  induction js generalizing g with
  | nil => exact absurd hj List.not_mem_nil
  | cons j' js ih =>
    obtain ⟨hnot, hnames⟩ := List.nodup_cons.1 hnames
    obtain ⟨g₁, hfirst, hrest⟩ := atOnce_settleJobs_cons.1 hturns
    obtain ⟨hsound₁, hle⟩ := h.settleJob hkey hleft hfirst
    have hleft₁ := fun c hc => (hleft c hc).mono hle
    rcases List.mem_cons.1 hj with rfl | hj
    · have hothers : ∀ j' ∈ js, j.name ≠ j'.name :=
        fun j' hj' heq => hnot (heq ▸ List.mem_map_of_mem hj')
      obtain ⟨hsame, hsound⟩ := same_settleJobs hsound₁ hkey hleft₁ hothers hrest
      exact ⟨g, g₁, .refl key j.name g, .refl _, h, hfirst, hsound₁, hsame, hsound⟩
    · have hne : j.name ≠ j'.name := fun heq => hnot (heq ▸ List.mem_map_of_mem hj)
      obtain ⟨before, after, hturn⟩ := ih hsound₁ hleft₁ hnames hj hrest
      exact ⟨before, after, (same_settleJob h hkey hleft hne hfirst).trans hturn.first,
        hle.trans hturn.grown, hturn.sound, hturn.turn, hturn.settled, hturn.rest, hturn.last⟩

/-- A draft after a job was brought in. -/
def submitted (j : JobSpec) (id : String) (now : Instant) (wasRetained : Bool) (d : Draft) :
    Except Fault QueueChange → Draft
  | .ok change =>
    if change = .unchanged ∧ wasRetained then d else d.put (conditionOf j id .submitted now "")
  | .error e => d.put (conditionOf j id .failed now (queueFailure j.name e))

theorem atOnce_submit {job : Job} {wasRetained : Bool} {d d' : Draft} :
    (submit j job now wasRetained d).AtOnce now w w' d' ↔
      w' = { w with manager := (w.manager.createOrUpdate now job).2 } ∧
        d' = submitted j job.id now wasRetained d (w.manager.createOrUpdate now job).1 := by
  refine Procedure.atOnce_manager.trans ?_
  simp only [Manager.answer, submitted]
  cases (w.manager.createOrUpdate now job).1 with
  | error e => exact .rfl
  | ok change =>
    by_cases hsame : change = .unchanged ∧ wasRetained
    · simp only [if_pos hsame]
      exact .rfl
    · simp only [if_neg hsame]
      exact .rfl

/-- The id for a job without a retained condition, unless it has to be a fresh one. -/
def chosenId (m : Manager) (key : OwnerKey) (d : Draft) (name : String) : Option String :=
  (reusableId d.reusable name).or (m.queuedId key name)

theorem atOnce_chooseId {d : Draft} {p : String × Draft}
    (h : (chooseId key d name).AtOnce now w w' p) :
    w' = w ∧ chosenId w.manager key d name = some p.1 ∨
      chosenId w.manager key d name = none ∧ w.issued p.1 = none ∧ w' = w.issue p.1 key name := by
  unfold chooseId at h
  split at h
  · rename_i id hput
    obtain ⟨rfl, rfl⟩ := h
    exact .inl ⟨rfl, by rw [chosenId, hput, Option.some_or]⟩
  · rename_i hput
    have h := Procedure.atOnce_manager.1 h
    have hchosen : chosenId w.manager key d name = w.manager.queuedId key name := by
      rw [chosenId, hput, Option.none_or]
    rw [hchosen]
    simp only [Manager.answer] at h
    cases hqueued : w.manager.queuedId key name with
    | some id =>
      rw [hqueued] at h
      obtain ⟨rfl, rfl⟩ := h
      exact .inl ⟨rfl, rfl⟩
    | none =>
      rw [hqueued] at h
      obtain ⟨id, w₁, ⟨⟨_, hid, rfl⟩, _⟩, rfl, rfl⟩ := h
      exact .inr ⟨rfl, hid, rfl⟩

theorem atOnce_settleJob {d d' : Draft} : (settleJob key r left j d).AtOnce now w w' d' ↔
    (match Job.build r j "" with
      | .error e => pure (refuse j e now (left.find? (·.name == j.name)) d)
      | .ok job =>
        match (left.find? (·.name == j.name)).filter (·.jobId != "") with
        | some kept => settleKept j job kept now d
        | none => settleNew key j job now (left.find? (·.name == j.name)).isSome d :
      Procedure Desk Draft).AtOnce now w w' d' :=
  Procedure.atOnce_manager

/-- A draft that has not changed in any turn says what it said. -/
theorem asks_settleJobs_unchanged (left : List Condition) (js : List JobSpec) (d : Draft) :
    (settleJobs key r left js d).Asks (fun _ => True) fun d' =>
      d'.changed = false → d.changed = false ∧ d'.conditions = d.conditions := by
  induction js generalizing d with
  | nil => exact fun h => ⟨h, rfl⟩
  | cons j js ih =>
    have hturn : (settleJob key r left j d).Asks (fun _ => True) (Alters j.name d) :=
      asks_settleJob_alters trivial trivial trivial (fun _ _ _ => trivial) fun _ _ _ => trivial
    refine hturn.seq fun d₁ halters => (ih d₁).weaken (fun _ h => h) fun d' hd' hunchanged => ?_
    obtain ⟨hunchanged₁, hconditions⟩ := hd' hunchanged
    obtain ⟨hunchanged, hconditions₁⟩ := halters.unchanged hunchanged₁
    exact ⟨hunchanged, hconditions.trans hconditions₁⟩

/-! ### What is left in the end -/

theorem atOnce_writeStatus {r₀ : Resource} {s : Status} {a : Except Fault Unit}
    (hresource : w.resources key = some r₀) (h : (writeStatus key r s).AtOnce now w w' a) :
    w'.manager = w.manager ∧
      ∃ r', w'.resources key = some r' ∧ r'.spec = r₀.spec ∧ r'.status = some s := by
  obtain ⟨reply, w₁, ⟨hanswer, rfl⟩, rfl, _⟩ := h
  rcases hanswer with ⟨_, hpatched⟩ | ⟨e, he, _⟩
  · obtain ⟨r₁, r', hr₁, hr', hspec, hstatus⟩ := hpatched.resource
    obtain rfl := Option.some.inj (hresource.symm.trans hr₁)
    exact ⟨hpatched.manager, r', hr', hspec, hstatus⟩
  · exact absurd he (by simp)

/-- In the end the status has the conditions of the draft, and what they do not name is dropped. -/
theorem atOnce_finish {d : Draft} {a : Except Fault Unit} (hresource : w.resources key = some r)
    (hunchanged : d.changed = false → (r.status.getD .initial).globalChange r.spec = false ∧
      d.conditions = (r.status.getD .initial).conditions)
    (h : (finish key r d).AtOnce now w w' a) :
    w'.manager = (w.manager.retainOwned key (idsNamed d.conditions)).2 ∧
      ∃ r' s, w'.resources key = some r' ∧ r'.spec = r.spec ∧ r'.status = some s ∧
        s.conditions = d.conditions := by
  have h := Procedure.atOnce_manager.1 h
  have hresource' : World.resources { w with
      manager := (w.manager.retainOwned key (idsNamed d.conditions)).2 } key = some r := hresource
  split at h
  · obtain ⟨hmanager, r', hr', hspec, hstatus⟩ := atOnce_writeStatus hresource' h
    exact ⟨hmanager, r', _, hr', hspec, hstatus, conditions_adopt _ _ _⟩
  · rename_i hchanged
    obtain ⟨rfl, _⟩ := h
    obtain ⟨hglobal, hconditions⟩ := hunchanged (Bool.not_eq_true _ ▸ hchanged)
    exact ⟨rfl, r, _, hresource', rfl, status_of_globalChange hglobal, hconditions.symm⟩

end Reconcile

namespace World

variable {now : Instant} {w w' : World} {key : OwnerKey} {name : String} {r : Resource}
  {j : JobSpec} {a : Except Fault Unit}

/-- Whether a condition is the one that the status of a resource has for a name, and no job of the
name is queued under another id. -/
structure Shows (w : World) (key : OwnerKey) (name : String) (c : Condition) : Prop where
  told : ∃ r s, w.resources key = some r ∧ r.status = some s ∧
    s.conditions.find? (·.name == name) = some c
  only : ∀ id job, w.manager.queue.get? id = some job → job.owner = key → job.name = name →
    id = c.jobId

/-- Nothing is queued or scheduled under an id that was never given out. -/
theorem Good.absent_of_fresh (hw : w.Good) {id : String} (hid : w.issued id = none) :
    w.manager.queue.get? id = none ∧ w.manager.engine.agenda.entries.get? id = none := by
  have hnone : w.manager.queue.get? id = none := by
    refine Option.eq_none_iff_forall_ne_some.2 fun job hjob => ?_
    have hissued := (hw.queued id job hjob).issued
    rw [hw.lockstep.keyed id job hjob, hid] at hissued
    exact Option.some_ne_none _ hissued.symm
  refine ⟨hnone, Option.eq_none_iff_forall_ne_some.2 fun entry hentry => ?_⟩
  rw [(hw.lockstep.entries id entry hentry).1] at hnone
  exact Option.some_ne_none _ hnone

/-- What is under the id of a sound condition is the same in worlds that are the same for its
name. -/
theorem SameFor.sameAt {c : Condition} {t : Option TargetSpec} (h : w.SameFor key c.name w')
    (hw : w.Good) (hw' : w'.Good) (hc : c.Sound w.issued key t) :
    w.manager.SameAt w'.manager c.jobId := by
  by_cases hne : c.jobId = ""
  · have hnone := hw.absent_of_fresh hw.unnamed
    have hnone' := hw'.absent_of_fresh hw'.unnamed
    rw [hne]
    exact ⟨hnone'.1.trans hnone.1.symm, hnone'.2.trans hnone.2.symm⟩
  · exact h.same c.jobId (hc.issued hne)

/-- When a reconcile has settled all jobs, the status has the conditions of the draft, and the jobs
that they name are left as they are. -/
theorem shows_of_finish {g : Reconcile.Stage} {c : Condition} (hg : g.Sound r) (hkey : r.key = key)
    (hmanager : w'.manager = (g.world.manager.retainOwned key
      (Reconcile.idsNamed g.draft.conditions)).2)
    (hstored : ∃ r' s, w'.resources key = some r' ∧ r'.spec = r.spec ∧ r'.status = some s ∧
      s.conditions = g.draft.conditions)
    (hc : g.draft.conditions.find? (·.name == name) = some c) :
    w'.Shows key name c ∧ g.world.manager.SameAt w'.manager c.jobId := by
  obtain ⟨r', s, hr', _, hstatus, hconditions⟩ := hstored
  obtain ⟨hmem, hname⟩ := Reconcile.find?_eq_some_name hc
  have hkept : ∀ id ∈ g.world.manager.idsOf key
      (fun id => !(Reconcile.idsNamed g.draft.conditions).contains id), id ≠ c.jobId := by
    rintro id hid rfl
    obtain ⟨job, hjob, _, hdropped⟩ := (Manager.mem_idsOf hg.good.lockstep.keyed).1 hid
    have hne : c.jobId ≠ "" := by
      intro heq
      rw [heq, (hg.good.absent_of_fresh hg.good.unnamed).1] at hjob
      exact absurd hjob (Option.some_ne_none _).symm
    simp [Reconcile.mem_idsNamed.2 ⟨c, hmem, rfl, hne⟩] at hdropped
  refine ⟨⟨⟨r', s, hr', hstatus, hconditions ▸ hc⟩, fun id job hjob howner hjname => ?_⟩, ?_⟩
  · rw [hmanager, Manager.retainOwned, Manager.get?_dropAll] at hjob
    split at hjob
    · exact absurd hjob (Option.some_ne_none _).symm
    · rename_i hid
      have hnamed : id ∈ Reconcile.idsNamed g.draft.conditions := by
        refine Decidable.byContradiction fun hnot => hid ?_
        exact (Manager.mem_idsOf hg.good.lockstep.keyed).2 ⟨job, hjob, howner, by simpa using hnot⟩
      obtain ⟨c', hc', rfl, hne⟩ := Reconcile.mem_idsNamed.1 hnamed
      have hissued := (hg.draft.conditions c' hc').issued hne
      rw [hkey] at hissued
      have hname' := hg.good.name_of_issued hissued hjob
      rw [eq_of_nodup hg.draft.distinct hc' hmem (hname'.symm.trans (hjname.trans hname.symm))]
  · rw [hmanager]
    exact Manager.sameAt_dropAll fun hid => hkept _ hid rfl

/-- A world when the conditions of the last status of a resource have been divided. -/
def divided (w : World) (key : OwnerKey) (r : Resource) : World :=
  let ids := Reconcile.droppedIds w.manager key r.spec (r.status.getD .initial)
  { w with manager := w.manager.dropAll ids }

/-- The course of a reconcile that nothing comes between: the stages before the first turn of a job
and after the last one. -/
structure Course (now : Instant) (key : OwnerKey) (r : Resource) (w w' : World)
    (a : Except Fault Unit) (first last : Reconcile.Stage) : Prop where
  start : ∀ name, (w.divided key r).SameFor key name first.world
  grown : w.issued.Le first.world.issued
  draft : first.draft = ⟨Reconcile.retained r.spec (r.status.getD .initial),
    Reconcile.putBy r.spec (r.status.getD .initial),
    (r.status.getD .initial).globalChange r.spec ||
      (Reconcile.retained r.spec (r.status.getD .initial)).length !=
        (r.status.getD .initial).conditions.length⟩
  sound : first.Sound r
  left : ∀ c ∈ Reconcile.retained r.spec (r.status.getD .initial),
    c.Sound first.world.issued r.key (some r.spec.target)
  turns : (Reconcile.settleJobs key r (Reconcile.retained r.spec (r.status.getD .initial))
    r.spec.jobs first.draft).AtOnce now first.world last.world last.draft
  resources : last.world.resources = w.resources
  finish : (Reconcile.finish key r last.draft).AtOnce now last.world w' a

theorem exists_course (hw : w.Good) (hresource : w.resources key = some r)
    (h : (reconcile key).AtOnce now w w' a) : ∃ first last, Course now key r w w' a first last := by
  have hr := hw.resources key r hresource
  have hkey := hr.filed
  obtain ⟨reply, w₁, ⟨⟨rfl, hreply⟩, fetched, rfl⟩, hrest⟩ := h
  obtain rfl : fetched = some r := by
    rcases hreply with hreply | ⟨e, he⟩
    · exact (Except.ok.inj hreply).trans hresource
    · exact absurd he (by simp)
  have hrest : (Reconcile.settleResource key r).AtOnce now w₁ w' a := hrest
  obtain ⟨_, w₂, hcomplained, hrest⟩ := Procedure.atOnce_seq.1 hrest
  obtain ⟨p, w₃, hdivided, hrest⟩ := Procedure.atOnce_seq.1 hrest
  obtain ⟨d, w₄, hturns, hfinished⟩ := Procedure.atOnce_seq.1 hrest
  have hkeeps : (Reconcile.complain key r).Keeps (Reconcile.Allowed key) (fun _ _ => True)
      w₁.issued := Reconcile.keeps_complain r
  obtain ⟨_, hw₂, hle₂⟩ := hcomplained.keeps hw hkeeps fun _ _ hc => hc.1
  have hs := (hr.mono hle₂).status_getD
  obtain ⟨⟨hdistinct, hleft, hreusable⟩, hw₃, hle₃⟩ :=
    hdivided.keeps hw₂ (Reconcile.keeps_divide hkey hs) fun _ _ hc => hc.1
  obtain ⟨rfl, rfl⟩ := Reconcile.atOnce_divide hdivided
  refine ⟨⟨_, _⟩, ⟨w₄, d⟩, fun name => ?_, hle₂.trans hle₃, rfl,
    ⟨hw₃, hdistinct, hleft, hreusable⟩, hleft, hturns, ?_, hfinished⟩
  · have hbeside : (Reconcile.complain key r).Asks (DeskCall.Beside key name w₁.issued)
        fun _ => True := Reconcile.asks_complain trivial fun _ => trivial
    have hsameOf : Reconcile.SameOf name (r.status.getD .initial) r.spec r.spec := ⟨rfl, rfl⟩
    exact hsameOf.dropped (hcomplained.sameFor hw hkeeps (.refl _) hbeside) hw hw₂ hr.status_getD
  · have hcomplain : (Reconcile.complain key r).Asks DeskCall.Harmless fun _ => True :=
      Reconcile.asks_complain trivial fun _ => trivial
    have hsettle : ∀ left d, (Reconcile.settleJobs key r left r.spec.jobs d).Asks
        DeskCall.Harmless fun _ => True :=
      fun left d => Reconcile.asks_settleJobs_each trivial (fun _ => trivial) (fun _ => trivial)
        (fun _ _ => trivial) (fun _ _ => trivial) _ _
    rw [hturns.resources (hsettle _ _), ← hcomplained.resources hcomplain]

/-- If nothing has changed up to the last turn of a job, the conditions are those of the status. -/
theorem Course.unchanged {first last : Reconcile.Stage} (h : Course now key r w w' a first last)
    (hchanged : last.draft.changed = false) :
    (r.status.getD .initial).globalChange r.spec = false ∧
      last.draft.conditions = (r.status.getD .initial).conditions := by
  obtain ⟨hstart, hsame⟩ := h.turns.result (Reconcile.asks_settleJobs_unchanged _ _ _) hchanged
  have hsound := h.sound.draft
  rw [h.draft] at hsound hstart hsame
  obtain ⟨hglobal, hconditions⟩ := (Reconcile.progress_start (v := first.world.view key) r
    hsound.distinct h.left hsound.reusable).unchanged hstart
  exact ⟨hglobal, hsame.trans hconditions⟩

/-- What the draft says about a name after the last turn is told in the end, and the job that it
names is left as it is. -/
theorem Course.shows {first last : Reconcile.Stage} {c : Condition}
    (h : Course now key r w w' a first last) (hw : w.Good) (hresource : w.resources key = some r)
    (hlast : last.Sound r) (hc : last.draft.conditions.find? (·.name == name) = some c) :
    w'.Shows key name c ∧ last.world.manager.SameAt w'.manager c.jobId := by
  have hkey := (hw.resources key r hresource).filed
  obtain ⟨hmanager, hstored⟩ := Reconcile.atOnce_finish
    ((congrFun h.resources key).trans hresource) h.unchanged h.finish
  exact shows_of_finish hlast hkey hmanager hstored hc

/-- The turn of a declared job in a reconcile: what is there before it, and that what it leaves is
left in the end. -/
structure Turn (now : Instant) (key : OwnerKey) (r : Resource) (j : JobSpec) (w w' : World)
    (before after : Reconcile.Stage) : Prop where
  start : (w.divided key r).SameFor key j.name before.world
  grown : w.issued.Le before.world.issued
  found : before.draft.conditions.find? (·.name == j.name) =
    (Reconcile.retained r.spec (r.status.getD .initial)).find? (·.name == j.name)
  reusable : Reconcile.reusableId before.draft.reusable j.name =
    Reconcile.reusableId (Reconcile.putBy r.spec (r.status.getD .initial)) j.name
  left : ∀ c ∈ Reconcile.retained r.spec (r.status.getD .initial),
    c.Sound before.world.issued r.key (some r.spec.target)
  sound : before.Sound r
  turn : (Reconcile.settleJob key r (Reconcile.retained r.spec (r.status.getD .initial)) j
    before.draft).AtOnce now before.world after.world after.draft
  settled : after.Sound r
  leaves : ∀ c, after.draft.conditions.find? (·.name == j.name) = some c →
    w'.Shows key j.name c ∧ after.world.manager.SameAt w'.manager c.jobId

/-- Every declared job has its turn in a reconcile that nothing comes between. -/
theorem exists_turn (hw : w.Good) (hresource : w.resources key = some r)
    (hnames : (r.spec.jobs.map JobSpec.name).Nodup) (hj : j ∈ r.spec.jobs)
    (h : (reconcile key).AtOnce now w w' a) :
    ∃ before after, Turn now key r j w w' before after := by
  have hkey := (hw.resources key r hresource).filed
  obtain ⟨first, last, hcourse⟩ := exists_course hw hresource h
  obtain ⟨before, after, hturn⟩ := Reconcile.exists_turn_of_mem hcourse.sound hkey hcourse.left
    hnames hj hcourse.turns
  refine ⟨before, after, (hcourse.start j.name).trans hturn.first.world,
    hcourse.grown.trans hturn.grown, ?_, ?_, fun c hc => (hcourse.left c hc).mono hturn.grown,
    hturn.sound, hturn.turn, hturn.settled, fun c hc => ?_⟩
  · rw [hturn.first.found, hcourse.draft]
  · rw [hturn.first.reusable, hcourse.draft]
  · obtain ⟨hshows, hsame⟩ := hcourse.shows hw hresource hturn.last (hturn.rest.found.trans hc)
    obtain ⟨hmem, hname⟩ := Reconcile.find?_eq_some_name hc
    have hsound := hturn.settled.draft.conditions c hmem
    refine ⟨hshows, .trans (SameFor.sameAt ?_ hturn.settled.good hturn.last.good hsound) hsame⟩
    rw [hkey, hname]
    exact hturn.rest.world

end World

end CronScale
