import CronScale.Proofs.Manager.Missing
/-!
# What a deletion has overtaken

When a resource was deleted and another one was written under its key, what was begun for the
earlier one may still be under way: a reconcile that works with a copy of it, and a pass that was
told that it is missing. The reconcile writes against a version that is gone
(`Reconcile.against_settleResource`), and the next one takes all jobs out before it brings any in
(`empties_reconcile`). The pass takes out none but jobs of its snapshot (`collects_sweep`). So the
jobs of the later resource can be told by their ids: once nothing is queued and nothing written
under an id that was given out before the pass, nothing will be (`World.Renewed.answers`).
-/

namespace CronScale

open CronScale.Calendar

/-! ### Ids that were given out since -/

namespace Issued

/-- Whether an id was given out for a job of a resource. -/
def Of (i : Issued) (key : OwnerKey) (id : String) : Prop := ∃ name, i id = some (key, name)

/-- What is given out now, but for the ids that were given out before for jobs of a resource. -/
def since (i before : Issued) (key : OwnerKey) : Issued := fun id =>
  if (before id).any (·.1 = key) then none else i id

variable {i i' before : Issued} {key owner : OwnerKey} {id name : String}

theorem Of.mono (h : i.Of key id) (hle : i.Le i') : i'.Of key id := by
  obtain ⟨name, hid⟩ := h
  exact ⟨name, hle _ _ hid⟩

theorem any_iff_of : (before id).any (·.1 = key) = true ↔ before.Of key id := by
  rw [Option.any_eq_true]
  constructor
  · rintro ⟨⟨owner, name⟩, hid, howner⟩
    exact ⟨name, of_decide_eq_true howner ▸ hid⟩
  · rintro ⟨name, hid⟩
    exact ⟨_, hid, decide_eq_true rfl⟩

theorem since_of (h : before.Of key id) : i.since before key id = none := if_pos (any_iff_of.2 h)

theorem since_of_not (h : ¬before.Of key id) : i.since before key id = i id :=
  if_neg fun hany => h (any_iff_of.1 hany)

theorem not_of_since (h : i.since before key id = some (owner, name)) : ¬before.Of key id :=
  fun hof => absurd ((since_of hof).symm.trans h) (Option.some_ne_none _).symm

theorem Le.since (h : i.Le i') : (i.since before key).Le (i'.since before key) := by
  intro id o hid
  have hnot : ¬before.Of key id := not_of_since hid
  rw [since_of_not hnot] at hid ⊢
  exact h id o hid

/-- The ids of the jobs of other resources are none of those left out. -/
theorem since_of_ne (hle : before.Le i) (hne : owner ≠ key) (h : i id = some (owner, name)) :
    i.since before key id = some (owner, name) := by
  refine (since_of_not ?_).trans h
  rintro ⟨name', hid⟩
  have hsame := Option.some.inj ((hle _ _ hid).symm.trans h)
  exact hne (congrArg Prod.fst hsame).symm

end Issued

section

variable {i before : Issued} {key owner : OwnerKey}

theorem Job.Sound.since {job : Job} (h : job.Sound i) (hnot : ¬before.Of key job.id) :
    job.Sound (i.since before key) :=
  ⟨h.named, (Issued.since_of_not hnot).trans h.issued⟩

theorem Job.Sound.since_of_ne {job : Job} (h : job.Sound i) (hle : before.Le i)
    (hne : job.owner ≠ key) : job.Sound (i.since before key) :=
  ⟨h.named, Issued.since_of_ne hle hne h.issued⟩

theorem Status.Sound.since_of_ne {s : Status} (h : s.Sound i owner) (hle : before.Le i)
    (hne : owner ≠ key) : s.Sound (i.since before key) owner where
  distinct := h.distinct
  conditions := fun c hc =>
    have hsound := h.conditions c hc
    ⟨fun hid => Issued.since_of_ne hle hne (hsound.issued hid), hsound.notFailure, hsound.failure⟩

theorem Resource.Sound.since_of_ne {r : Resource} (h : r.Sound i owner) (hle : before.Le i)
    (hne : owner ≠ key) : r.Sound (i.since before key) owner :=
  ⟨h.filed, fun s hs => (h.status s hs).since_of_ne hle hne⟩

end

/-! ### Reconciles -/

namespace DeskCall

/-- Whether a call neither asks for a resource nor writes its status but against one of some
versions. -/
def Against (key : OwnerKey) (versions : List String) : DeskCall → Prop
  | .store (.fetch _) => False
  | .store (.patchStatus k _ version) => k = key → ∃ v ∈ versions, version = some v
  | _ => True

/-- What a reconcile asks for before it touches any job. -/
def Preliminary (key : OwnerKey) : DeskCall → Prop
  | .store (.fetch k) => k = key
  | .store (.publish _ _) => True
  | .manager (.note _ _) => True
  | .startSweep => True
  | _ => False

/-- Whether no copy of a resource that is answered has a status. -/
def Blank (key : OwnerKey) : (c : DeskCall) → c.Reply → Prop
  | .store (.fetch k), reply => k = key → ∀ r, reply = .ok (some r) → r.status = none
  | _, _ => True

theorem Against.mono {key : OwnerKey} {versions versions' : List String} {c : DeskCall}
    (h : c.Against key versions) (hsub : versions ⊆ versions') : c.Against key versions' := by
  cases c with
  | store c =>
    cases c with
    | patchStatus k s version =>
      intro hk
      obtain ⟨v, hv, hversion⟩ := h hk
      exact ⟨v, hsub hv, hversion⟩
    | _ => exact h
  | _ => trivial

end DeskCall

namespace Procedure

variable {α β : Type} {key : OwnerKey} {p : Procedure Desk α}

/-- Whether a procedure, told of no copy of a resource with a status, takes all jobs of the resource
out before it brings any in or writes anything. -/
def Empties (key : OwnerKey) : Procedure Desk α → Prop
  | .done _ => True
  | .ask c next => c = .manager (.deleteOwnedBy key) ∨
    (c.Preliminary key ∧ ∀ reply, c.Blank key reply → Empties key (next reply))

theorem Asks.empties {post : α → Prop} {f : α → Procedure Desk β}
    (h : p.Asks (DeskCall.Preliminary key) post) (hf : ∀ a, post a → (f a).Empties key) :
    (p >>= f).Empties key := by
  induction p with
  | done a => exact hf a h
  | ask c next ih => exact .inr ⟨h.1, fun reply _ => ih reply (h.2 reply)⟩

end Procedure

namespace Reconcile

variable {key : OwnerKey} {r : Resource}

/-- Once it has its copy, a reconcile writes the status at most against the version of the copy. -/
theorem against_settleResource {versions : List String} {v : String} (hv : v ∈ versions)
    (hversion : r.metadata.resourceVersion = some v) :
    (settleResource key r).Asks (DeskCall.Against key versions) fun _ => True := by
  refine (asks_settleResource key r).weaken (fun c hc => ?_) fun _ h => h
  cases c with
  | store c =>
    cases c with
    | fetch k => exact hc
    | patchStatus k s version => exact fun _ => ⟨v, hv, hc.2.1.trans hversion⟩
    | publish r e => trivial
  | _ => trivial

/-- Without a status nothing was adopted yet, so all jobs are made anew. -/
theorem empties_settleResource (hblank : r.status = none) :
    (settleResource key r).Empties key := by
  refine (asks_complain trivial fun _ => trivial).empties fun _ _ => ?_
  rw [hblank]
  exact .inl rfl

end Reconcile

theorem empties_reconcile (key : OwnerKey) : (reconcile key).Empties key := by
  refine .inr ⟨rfl, fun reply hblank => ?_⟩
  match reply with
  | .error e => trivial
  | .ok none => exact .inr ⟨trivial, fun _ _ => .inr ⟨trivial, fun _ _ => trivial⟩⟩
  | .ok (some r) => exact Reconcile.empties_settleResource (hblank rfl r rfl)

/-! ### Passes that collect lost jobs -/

namespace DeskCall

/-- What a pass asks for that has a snapshot with some ids. The jobs of a resource it takes out only
if it was told that the resource is missing. -/
def Collects (key : OwnerKey) (i : Issued) (told : Prop) : DeskCall → Prop
  | .store (.patchStatus _ _ _) => False
  | .manager (.delete id) => ∃ owner name, i id = some (owner, name) ∧ (owner = key → told)
  | .manager (.createOrUpdate _) => False
  | .manager (.deleteOwnedBy _) => False
  | .manager (.retainOwned _ _) => False
  | .freshId _ _ => False
  | .startSweep => False
  | _ => True

/-- Whether an answer says that a resource is missing. -/
def Informs (key : OwnerKey) : (c : DeskCall) → c.Reply → Prop
  | .store (.fetch k), reply => k = key ∧ reply = .ok none
  | _, _ => False

end DeskCall

namespace Procedure

variable {α β : Type} {key : OwnerKey} {i : Issued} {told : Prop} {p : Procedure Desk α}

/-- Whether a procedure asks for nothing but what a pass does, and its result has a property, if it
is noted whether it was told that a resource is missing. -/
def Collects (key : OwnerKey) (i : Issued) (post : Prop → α → Prop) : Procedure Desk α → Prop → Prop
  | .done a, told => post told a
  | .ask c next, told => c.Collects key i told ∧
    ∀ reply, Collects key i post (next reply) (told ∨ c.Informs key reply)

theorem Collects.seq {f : α → Procedure Desk β} {post : Prop → α → Prop} {post' : Prop → β → Prop}
    (h : p.Collects key i post told)
    (hf : ∀ told' a, post told' a → (f a).Collects key i post' told') :
    (p >>= f).Collects key i post' told := by
  induction p generalizing told with
  | done a => exact hf told a h
  | ask c next ih => exact ⟨h.1, fun reply => ih reply (h.2 reply)⟩

theorem collects_ask {c : DeskCall} {f : c.Reply → Procedure Desk α} {post : Prop → α → Prop}
    (hc : c.Collects key i told)
    (hf : ∀ reply, (f reply).Collects key i post (told ∨ c.Informs key reply)) :
    (Desk.ask c >>= f).Collects key i post told :=
  ⟨hc, hf⟩

end Procedure

namespace Sweep

variable {key : OwnerKey} {i : Issued} {told told' : Prop} {s : Sweep}

/-- Whether a pass takes a resource to be missing only if it was told so. -/
def Learnt (key : OwnerKey) (told : Prop) (s : Sweep) : Prop :=
  ∀ p ∈ s.owners, p.1 = key → p.2 = none → told

theorem Learnt.mono (h : s.Learnt key told) (htold : told → told') : s.Learnt key told' :=
  fun p hp howner hnone => htold (h p hp howner hnone)

theorem collects_ownerOf (hs : s.Learnt key told) (owner : OwnerKey) :
    (s.ownerOf owner).Collects key i (fun told' p => p.2.Learnt key told' ∧
      (p.1 = some none → owner = key → told')) told := by
  unfold ownerOf
  split
  · rename_i known hknown
    refine ⟨hs, fun hnone howner => ?_⟩
    have hfound := List.find?_some hknown
    simp only [decide_eq_true_eq] at hfound
    exact hs known (List.mem_of_find?_eq_some hknown) (hfound.trans howner) (Option.some.inj hnone)
  · refine Procedure.collects_ask trivial fun reply => ?_
    cases reply with
    | error e => exact ⟨hs.mono .inl, fun hnone => absurd hnone (by simp)⟩
    | ok r =>
      have hasked : owner = key → r = none → told ∨
          (DeskCall.store (.fetch owner)).Informs key (.ok r) :=
        fun howner hnone => .inr ⟨howner, hnone ▸ rfl⟩
      exact ⟨List.forall_mem_cons.2 ⟨hasked, hs.mono .inl⟩,
        fun hnone howner => hasked howner (Option.some.inj hnone)⟩

theorem collects_renew (hs : s.Learnt key told) (job : Job) :
    (s.renew job).Collects key i (fun told' s' => s'.Learnt key told') told :=
  Procedure.collects_ask trivial fun _ => hs.mono .inl

theorem collects_visit (hs : s.Learnt key told) {job : Job} (hjob : job.Sound i) :
    (s.visit job).Collects key i (fun told' s' => s'.Learnt key told') told := by
  refine (collects_ownerOf hs job.owner).seq fun told₁ p hp => ?_
  obtain ⟨owner, s₁⟩ := p
  obtain ⟨hs₁, hmissing⟩ := hp
  match owner with
  | none => exact hs₁
  | some none =>
    refine Procedure.collects_ask ⟨_, _, hjob.issued, hmissing rfl⟩ fun _ => ?_
    exact Procedure.collects_ask trivial fun _ => (hs₁.mono .inl).mono .inl
  | some (some r) =>
    refine Procedure.collects_ask trivial fun reply => ?_
    cases reply with
    | found => exact hs₁.mono .inl
    | notFound => exact collects_renew (hs₁.mono .inl) job
    | outOfDate missed =>
      exact Procedure.collects_ask trivial fun _ => collects_renew ((hs₁.mono .inl).mono .inl) job

theorem collects_visitAll (hs : s.Learnt key told) {jobs : List Job}
    (hjobs : ∀ job ∈ jobs, job.Sound i) :
    (visitAll s jobs).Collects key i (fun _ _ => True) told := by
  induction jobs generalizing s told with
  | nil => trivial
  | cons job jobs ih =>
    obtain ⟨hjob, hjobs⟩ := List.forall_mem_cons.1 hjobs
    exact (collects_visit hs hjob).seq fun told₁ s₁ hs₁ => ih hs₁ hjobs

end Sweep

/-- A pass takes a snapshot, and then takes out only jobs of the snapshot, those of a resource only
once it was told that the resource is missing. -/
theorem collects_sweep (key : OwnerKey) : ∃ next, sweep = .ask (.manager .snapshot) next ∧
    ∀ i (jobs : List Job), (∀ job ∈ jobs, job.Sound i) →
      (next jobs).Collects key i (fun _ _ => True) False := by
  refine ⟨_, rfl, fun i jobs hjobs => ?_⟩
  have hnone : ({} : Sweep).Learnt key False := fun _ hp => absurd hp List.not_mem_nil
  refine (Sweep.collects_visitAll hnone hjobs).seq fun told₁ s _ => ?_
  refine Procedure.collects_ask trivial fun left => ?_
  refine Procedure.collects_ask trivial fun _ => ?_
  generalize s.rerunOrder = reruns
  cases reruns with
  | nil => trivial
  | cons job jobs => exact Procedure.collects_ask trivial fun _ => trivial

/-! ### Worlds with nothing of an earlier resource -/

namespace World

variable {w w' : World} {key : OwnerKey} {before : Issued} {c : DeskCall} {reply : c.Reply}

theorem missing_of_informs (h : c.Informs key reply) (hanswer : w.Answers c reply w') :
    w.resources key = none := by
  cases c with
  | store c =>
    cases c with
    | fetch k =>
      obtain ⟨rfl, rfl⟩ := h
      rcases hanswer.2 with hreply | ⟨e, hreply⟩
      · exact (Except.ok.inj hreply).symm
      · exact absurd hreply (by simp)
    | _ => exact h.elim
  | _ => exact h.elim

/-- Whether no stored copy of a resource has a status. -/
def Unwritten (w : World) (key : OwnerKey) : Prop := ∀ r, w.resources key = some r → r.status = none

theorem Unwritten.sound (h : w.Unwritten key) (hw : w.Good) {r : Resource}
    (hr : w.resources key = some r) (i : Issued) : r.Sound i key :=
  ⟨(hw.resources key r hr).filed,
    fun s hs => absurd ((h r hr).symm.trans hs) (Option.some_ne_none s).symm⟩

/-- What is answered before any job is touched is told of a resource without a status. -/
theorem Unwritten.answers (h : w.Unwritten key) (hw : w.Good) (hc : c.Preliminary key)
    (hanswer : w.Answers c reply w') :
    c.Blank key reply ∧ (∀ i, c.Fits i reply) ∧ w'.resources key = w.resources key := by
  cases c with
  | store c =>
    cases c with
    | fetch k =>
      obtain rfl : k = key := hc
      obtain ⟨rfl, hreply⟩ := hanswer
      have htold : ∀ r, reply = .ok (some r) → w'.resources k = some r := by
        rintro r rfl
        rcases hreply with hreply | ⟨e, hreply⟩
        · exact (Except.ok.inj hreply).symm
        · exact absurd hreply (by simp)
      exact ⟨fun _ r hr => h r (htold r hr), fun i r hr => h.sound hw (htold r hr) i, rfl⟩
    | patchStatus k s version => exact hc.elim
    | publish r e => exact ⟨trivial, fun _ => trivial, by rw [show w' = w from hanswer]⟩
  | manager mc =>
    obtain ⟨now, _, rfl⟩ := hanswer
    cases mc with
    | note owner complaint => exact ⟨trivial, fun _ => trivial, rfl⟩
    | _ => exact hc.elim
  | startSweep =>
    obtain rfl : w' = _ := hanswer
    exact ⟨trivial, fun _ => trivial, rfl⟩
  | _ => exact hc.elim

/-- Whether neither a job of a resource is queued nor its status written with an id that was given
out before. -/
structure Renewed (w : World) (before : Issued) (key : OwnerKey) : Prop where
  queued : ∀ id, w.Holds key id → ¬before.Of key id
  stored : ∀ r, w.resources key = some r → r.Sound (w.issued.since before key) key

/-- A world with nothing under way, as if the ids that were given out before for jobs of a resource
had never been. -/
def since (w : World) (before : Issued) (key : OwnerKey) : World :=
  { w with issued := w.issued.since before key, procedures := [], executing := [] }

theorem Renewed.good (h : w.Renewed before key) (hw : w.Good) (hle : before.Le w.issued) :
    (w.since before key).Good where
  unnamed := by
    refine (Issued.since_of_not ?_).trans hw.unnamed
    rintro ⟨name, hid⟩
    exact absurd (hw.unnamed.symm.trans (hle _ _ hid)) (Option.some_ne_none _).symm
  resources := by
    intro k r hr
    by_cases hk : k = key
    · exact hk ▸ h.stored r (hk ▸ hr)
    · exact (hw.resources k r hr).since_of_ne hle hk
  lockstep := hw.lockstep
  queued := by
    intro id job hjob
    have hsound := hw.queued id job hjob
    by_cases howner : job.owner = key
    · refine hsound.since (h.queued job.id ⟨job, ?_, howner⟩)
      rw [hw.lockstep.keyed id job hjob]
      exact hjob
    · exact hsound.since_of_ne hle howner
  procedures := fun _ hp => absurd hp List.not_mem_nil
  executing := fun _ hjob => absurd hjob List.not_mem_nil

theorem Renewed.of_good (hw : (w.since before key).Good) : w.Renewed before key where
  queued := by
    rintro id ⟨job, hjob, _⟩
    have hissued := (hw.queued id job hjob).issued
    rw [hw.lockstep.keyed id job hjob] at hissued
    exact Issued.not_of_since hissued
  stored := fun r hr => hw.resources key r hr

/-- A call is answered in the same way as if they had never been, if it begins nothing. -/
theorem answers_since (hle : before.Le w.issued) (hc : c ≠ .startSweep)
    (hanswer : w.Answers c reply w') :
    (w.since before key).Answers c reply (w'.since before key) := by
  have hpatched : ∀ k s version, w.Patched k s version w' →
      (w.since before key).Patched k s version (w'.since before key) := by
    rintro k s version ⟨r, v, hr, hversion, hfresh, rfl⟩
    exact ⟨r, v, hr, hversion, hfresh, rfl⟩
  cases c with
  | store c =>
    cases c with
    | fetch k => exact ⟨by rw [hanswer.1], hanswer.2⟩
    | patchStatus k s version =>
      rcases hanswer with ⟨hreply, h⟩ | ⟨e, hreply, ⟨rfl, hmissing⟩ | ⟨hmissing, h⟩⟩
      · exact .inl ⟨hreply, hpatched _ _ _ h⟩
      · exact .inr ⟨e, hreply, .inl ⟨rfl, hmissing⟩⟩
      · exact .inr ⟨e, hreply, .inr ⟨hmissing, hpatched _ _ _ h⟩⟩
    | publish r e =>
      obtain rfl : w' = w := hanswer
      exact rfl
  | manager mc =>
    obtain ⟨now, hreply, rfl⟩ := hanswer
    exact ⟨now, hreply, rfl⟩
  | freshId owner name =>
    obtain ⟨hne, hid, rfl⟩ := hanswer
    have hnot : ¬before.Of key reply := by
      rintro ⟨name', hold⟩
      exact absurd (hid.symm.trans (hle _ _ hold)) (Option.some_ne_none _).symm
    refine ⟨hne, (Issued.since_of_not hnot).trans hid, ?_⟩
    have hissued : (w.issue reply owner name).issued.since before key =
        ((w.since before key).issue reply owner name).issued := by
      funext id
      by_cases hold : before.Of key id
      · have hother : id ≠ reply := fun heq => hnot (heq ▸ hold)
        simp only [World.issue, World.since, Issued.since_of hold, hother, if_false]
      · simp only [World.issue, World.since, Issued.since_of_not hold]
    simp only [World.since, World.issue] at hissued ⊢
    rw [hissued]
  | publishCounts counts =>
    obtain rfl : w' = w := hanswer
    exact rfl
  | startSweep => exact absurd rfl hc
  | startReruns jobs =>
    obtain rfl : w' = _ := hanswer
    exact rfl

/-- A call that cannot break the invariant, going by the ids that were given out since, brings none
of the ids from before back. -/
theorem Renewed.answers (h : w.Renewed before key) (hw : w.Good) (hle : before.Le w.issued)
    (hc : c.Sound (w.issued.since before key)) (hanswer : w.Answers c reply w') :
    w'.Renewed before key ∧ c.Fits (w'.issued.since before key) reply := by
  by_cases hsweep : c = .startSweep
  · subst hsweep
    obtain rfl : w' = _ := hanswer
    exact ⟨⟨h.queued, h.stored⟩, trivial⟩
  · obtain ⟨hgood, _, hfits⟩ := (h.good hw hle).answers hc (answers_since hle hsweep hanswer)
    exact ⟨.of_good hgood, hfits⟩

/-- A write against one of some versions is refused if the resource has none of them. -/
theorem resources_of_against {versions : List String} (hc : c.Against key versions)
    (hstored : ∀ r, w.resources key = some r → ∀ v ∈ versions,
      r.metadata.resourceVersion ≠ some v)
    (hanswer : w.Answers c reply w') : w'.resources key = w.resources key := by
  by_cases hpatch : ∃ s version, c = .store (.patchStatus key s version)
  · obtain ⟨s, version, rfl⟩ := hpatch
    obtain ⟨v, hv, rfl⟩ := hc rfl
    have hrefused : ¬w.Patched key s (some v) w' := by
      rintro ⟨r, _, hr, hversion, _⟩
      exact hstored r hr v hv (hversion.resolve_left (Option.some_ne_none v)).symm
    rcases hanswer with ⟨_, h⟩ | ⟨_, _, ⟨rfl, _⟩ | ⟨_, h⟩⟩
    · exact absurd h hrefused
    · rfl
    · exact absurd h hrefused
  · exact resources_of_answers hanswer fun s version heq => hpatch ⟨s, version, heq⟩

end World

end CronScale
