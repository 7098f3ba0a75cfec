import CronScale.Proofs.Manager.Attended
import CronScale.Proofs.Manager.Beside
import CronScale.Proofs.Manager.Heeding
import CronScale.Proofs.Manager.Overtaken
/-!
# Reconciles that nothing disturbs

What is under way beside a reconcile may take jobs of the resource out only if it is another
reconcile of it, if it handles an earlier deletion, or if it is a pass that was told that the
resource is missing. As long as nothing of this is under way and the resource is neither written nor
deleted, its queued jobs stay as they are between the calls of the reconcile
(`World.aside_of_undisturbed`), and a reconcile that succeeds leaves what the resource declares
(`World.reconcile_settles`).
-/

namespace CronScale

open CronScale.Calendar

/-- What may be under way beside a reconcile of a resource: anything but another reconcile of it and
what the watch does about a deletion of it. -/
inductive Procedure.Foreign (key : OwnerKey) : Procedure Desk Unit → Prop
  | reconciling {other : OwnerKey} (hother : other ≠ key) :
      Foreign key (World.task (reconcile other))
  | collecting : Foreign key (World.task sweep)
  | watching {e : WatchEvent} (he : e ≠ .deleted key) : Foreign key (watchDeletions e)
  | recording (settings : ManagerSettings) (job : Job) (outcome : Except Fault String) :
      Foreign key (record settings job outcome)

/-- What may happen beside it: anything but that something else is begun, and that the manager is
set up anew. -/
def Happening.Foreign (key : OwnerKey) : Happening → Prop
  | .begin p => p.Foreign key
  | .restart => False
  | _ => True

/-- Whether what happens is a call that writes no status. -/
def Happening.Harmless (happening : Happening) : Prop :=
  ∃ c reply, happening = .call c reply ∧ c.Harmless

/-- Whether a call leaves the queued jobs of a resource alone. -/
def DeskCall.Avoids (key : OwnerKey) (i : Issued) : DeskCall → Prop
  | .manager (.createOrUpdate job) => job.owner ≠ key
  | .manager (.delete id) => ∃ owner name, i id = some (owner, name) ∧ owner ≠ key
  | .manager (.deleteOwnedBy owner) => owner ≠ key
  | .manager (.retainOwned owner _) => owner ≠ key
  | _ => True

namespace Procedure

variable {α : Type}

/-- What is left of a procedure after calls that were answered as the invariant says, and never to
the effect that a resource is missing. -/
inductive Left (key : OwnerKey) (p : Procedure Desk α) : Issued → Procedure Desk α → Prop
  | whole (i : Issued) : Left key p i p
  | answered {i i' : Issued} {c : DeskCall} {next : c.Reply → Procedure Desk α} {reply : c.Reply} :
      Left key p i (.ask c next) → i.Le i' → c.Fits i' reply → ¬c.Informs key reply →
      Left key p i' (next reply)

/-- Whether a procedure leaves the queued jobs of a resource alone, if it is not told that the
resource is missing. -/
def Avoids (key : OwnerKey) (p : Procedure Desk α) (i : Issued) : Prop :=
  p.Heeds (fun c reply => ¬c.Informs key reply) (DeskCall.Avoids key) (fun _ _ => True) i

variable {key : OwnerKey} {i i' : Issued} {p q : Procedure Desk α}

theorem Left.mono (h : p.Left key i q) (hle : i.Le i') : p.Left key i' q := by
  cases h with
  | whole => exact .whole i'
  | answered hleft hle' hfits htold => exact .answered hleft (hle'.trans hle) (hfits.mono hle) htold

theorem Left.avoids (h : p.Left key i q) (hp : ∀ i, p.Avoids key i) : q.Avoids key i := by
  induction h with
  | whole i => exact hp i
  | answered _ hle hfits htold ih => exact ih.2 _ _ hle hfits htold

theorem Avoids.task (h : p.Avoids key i) : (World.task p).Avoids key i :=
  Heeds.bind h fun _ _ _ _ => trivial

theorem avoids_of_collects {c : DeskCall} {told : Prop} (h : c.Collects key i told)
    (htold : ¬told) (hle : i.Le i') : c.Avoids key i' := by
  cases c with
  | manager c =>
    cases c with
    | delete id =>
      obtain ⟨owner, name, hid, howner⟩ := h
      exact ⟨owner, name, hle _ _ hid, fun heq => htold (howner heq)⟩
    | createOrUpdate job => exact h.elim
    | deleteOwnedBy owner => exact h.elim
    | retainOwned owner keep => exact h.elim
    | _ => trivial
  | _ => trivial

/-- A pass that was not told that a resource is missing takes none of its jobs out. -/
theorem Collects.avoids {post : Prop → α → Prop} {told : Prop} (h : p.Collects key i post told)
    (htold : ¬told) (hle : i.Le i') : p.Avoids key i' := by
  induction p generalizing told i' with
  | done a => trivial
  | ask c next ih =>
    refine ⟨avoids_of_collects h.1 htold hle, fun i'' reply hle' _ hnot => ?_⟩
    exact ih reply (h.2 reply) (not_or.2 ⟨htold, hnot⟩) (hle.trans hle')

theorem avoids_sweep (key : OwnerKey) (i : Issued) : sweep.Avoids key i := by
  obtain ⟨next, heq, hnext⟩ := collects_sweep key
  rw [heq]
  refine ⟨trivial, fun i' jobs _ hjobs _ => ?_⟩
  exact (hnext i' jobs hjobs).avoids id (.refl i')

theorem avoids_of_allowed {other : OwnerKey} (hne : other ≠ key) {c : DeskCall}
    (h : Reconcile.Allowed other i c) : c.Avoids key i := by
  obtain ⟨_, hwithin⟩ := h
  cases c with
  | manager c =>
    cases c with
    | createOrUpdate job => exact fun heq => hne (hwithin.symm.trans heq)
    | delete id =>
      obtain ⟨name, hid⟩ := hwithin
      exact ⟨other, name, hid, hne⟩
    | deleteOwnedBy owner => exact fun heq => hne (hwithin.symm.trans heq)
    | retainOwned owner keep => exact fun heq => hne (hwithin.symm.trans heq)
    | _ => trivial
  | _ => trivial

theorem avoids_reconcile {other : OwnerKey} (hne : other ≠ key) (i : Issued) :
    (reconcile other).Avoids key i :=
  (keeps_reconcile other i).heeds fun _ _ hallowed => avoids_of_allowed hne hallowed

theorem avoids_watchDeletions {e : WatchEvent} (he : e ≠ .deleted key) (i : Issued) :
    (watchDeletions e).Avoids key i := by
  cases e with
  | applied k => trivial
  | deleted k =>
    have hk : k ≠ key := fun heq => he (congrArg WatchEvent.deleted heq)
    exact ⟨trivial, fun _ _ _ _ _ => ⟨hk, fun _ _ _ _ _ => trivial⟩⟩
  | restarted keys => exact (avoids_sweep key i).task

theorem Foreign.avoids {p : Procedure Desk Unit} (h : p.Foreign key) (i : Issued) :
    p.Avoids key i := by
  cases h with
  | reconciling hother => exact (avoids_reconcile hother i).task
  | collecting => exact (avoids_sweep key i).task
  | watching he => exact avoids_watchDeletions he i
  | recording settings job outcome =>
    have hasks : (record settings job outcome).Asks (fun c => ∀ i, c.Avoids key i) fun _ => True :=
      asks_record (fun _ => trivial) (fun _ _ => trivial) settings job outcome
    exact hasks.heeds fun i _ hc => hc i

end Procedure

namespace World

variable {w w' : World} {key : OwnerKey}

/-- Whether all that is under way is left of something else than another reconcile of a resource or
the handling of an earlier deletion, and none of it was told that the resource is missing. -/
def Aloof (key : OwnerKey) (w : World) : Prop :=
  ∀ p ∈ w.procedures, ∃ q : Procedure Desk Unit, q.Foreign key ∧ q.Left key w.issued p

/-- What happens beside a reconcile of a resource that is neither written nor deleted. -/
structure Undisturbed (key : OwnerKey) (w w' : World) : Prop where
  step : Amidst (Happening.Foreign key) w w'
  resource : w'.resources key = w.resources key

/-- A call that avoids a resource leaves its queued jobs as they are. -/
theorem queued_iff_of_avoids (h : w.Good) {c : DeskCall} {reply : c.Reply}
    (hsound : c.Sound w.issued) (havoids : c.Avoids key w.issued)
    (hanswer : w.Answers c reply w') {id : String} {job : Job} (howner : job.owner = key) :
    w'.manager.queue.get? id = some job ↔ w.manager.queue.get? id = some job := by
  rcases answer_of_answers hanswer with hsame | ⟨mc, now, rfl, _⟩
  · rw [hsame]
  · refine queued_iff_of_answers h hsound hanswer ?_ ?_ howner
    · intro hadds
      cases mc with
      | createOrUpdate job' => exact havoids hadds.1
      | _ => exact hadds
    · intro hdisturbs
      cases mc with
      | delete id' =>
        obtain ⟨owner, name, hissued, hne⟩ := havoids
        obtain ⟨job', hjob', howner'⟩ := hdisturbs
        exact hne ((h.owner_of_issued hissued hjob').symm.trans howner')
      | deleteOwnedBy owner => exact havoids hdisturbs.1
      | retainOwned owner keep => exact havoids hdisturbs.1
      | _ => exact hdisturbs

/-- What a call of a reconcile, or of anything else, begins is a pass. -/
theorem Aloof.answers {c : DeskCall} {reply : c.Reply} (haloof : w.Aloof key)
    (hle : w.issued.Le w'.issued) (hanswer : w.Answers c reply w') : w'.Aloof key := by
  refine forall_procedures_of_answers hanswer ⟨_, .collecting, .whole _⟩ fun p hp => ?_
  obtain ⟨q, hq, hleft⟩ := haloof p hp
  exact ⟨q, hq, hleft.mono hle⟩

/-- While nothing disturbs a reconcile, the queued jobs of its resource stay as they are, and what is
under way stays aloof. -/
theorem aside_of_undisturbed (h : w.Good) (haloof : w.Aloof key) (hthere : w.resources key ≠ none)
    (hstep : Undisturbed key w w') : Aside key w w' ∧ w'.Aloof key := by
  obtain ⟨⟨happening, htest, hhappens⟩, hresource⟩ := hstep
  have hstep := hhappens.step
  cases hhappens with
  | begin p hp =>
    have hbegun : ∃ q : Procedure Desk Unit, q.Foreign key ∧ q.Left key w.issued p :=
      ⟨p, htest, .whole _⟩
    exact ⟨⟨hstep, hresource, fun _ _ _ => Iff.rfl⟩, List.forall_mem_cons.2 ⟨hbegun, haloof⟩⟩
  | @call _ w' ps qs c next reply hask hanswer =>
    obtain ⟨hsound, hothers⟩ := h.caller hask
    obtain ⟨_, hle, hfits⟩ := hothers.answers hsound.1 hanswer
    have hprocedures : ∀ p ∈ ps ++ Procedure.ask c next :: qs,
        ∃ q : Procedure Desk Unit, q.Foreign key ∧ q.Left key w.issued p := hask ▸ haloof
    obtain ⟨q, hq, hleft⟩ := hprocedures _ (List.mem_append_right _ List.mem_cons_self)
    have htold : ¬c.Informs key reply := fun hinforms =>
      have hmissing : World.resources { w with procedures := ps ++ qs } key = none :=
        missing_of_informs hinforms hanswer
      hthere hmissing
    have hrest : Aloof key { w with procedures := ps ++ qs } := fun p hp =>
      hprocedures p (((List.sublist_cons_self _ qs).append_left ps).subset hp)
    refine ⟨⟨hstep, hresource, fun id job howner => ?_⟩, List.forall_mem_cons.2 ⟨?_, ?_⟩⟩
    · exact queued_iff_of_avoids hothers hsound.1 (hleft.avoids hq.avoids).1 hanswer howner
    · exact ⟨q, hq, hleft.answered hle hfits htold⟩
    · exact hrest.answers hle hanswer
  | finish job settings outcome hjob =>
    have hbegun : ∃ q : Procedure Desk Unit, q.Foreign key ∧
        q.Left key w.issued (record settings job outcome) :=
      ⟨_, .recording settings job outcome, .whole _⟩
    exact ⟨⟨hstep, hresource, fun _ _ _ => Iff.rfl⟩, List.forall_mem_cons.2 ⟨hbegun, haloof⟩⟩
  | restart zone staleness => exact htest.elim
  | _ => exact ⟨⟨hstep, hresource, fun _ _ _ => Iff.rfl⟩, haloof⟩

/-- What nothing disturbs, from a world in which what is under way is aloof, nothing touches. -/
theorem Exec.aside {α : Type} {p : Procedure Desk α} {own : List (World × World)} {a : α}
    (hexec : Exec (Undisturbed key) w p own a w') (h : w.Good) (haloof : w.Aloof key)
    (hthere : w.resources key ≠ none)
    (hkeeps : p.Keeps (Reconcile.Allowed key) (fun _ _ => True) w.issued) :
    Exec (Aside key) w p own a w' := by
  induction hexec with
  | done a => exact .done a
  | between hstep _ ih =>
    obtain ⟨haside, haloof'⟩ := aside_of_undisturbed h haloof hthere hstep
    obtain ⟨hgood, hle⟩ := h.step haside.step
    have hkeeps' := hkeeps.mono (fun _ hc => hc.mono hle) (fun _ _ => trivial) hle
    exact .between haside (ih hgood haloof' (haside.resource ▸ hthere) hkeeps')
  | ask hanswer _ ih =>
    obtain ⟨hallowed, hnext⟩ := hkeeps
    obtain ⟨hgood, hle, hfits⟩ := h.answers hallowed.1 hanswer
    have hthere' := fun hnone => hthere ((stored_of_answers hanswer).1.1 hnone)
    exact .ask hanswer (ih hgood (haloof.answers hle hanswer) hthere' (hnext _ _ hle hfits))

/-- Whatever has happened before, if no other reconcile of a resource is under way and no handling of
an earlier deletion, a reconcile of it that succeeds while it is neither written nor deleted leaves
a status that describes the resource, and a queue and an agenda with the jobs that it asks for; in
none of its steps it touches the jobs of other resources. -/
theorem reconcile_settles {w w' : World} {key : OwnerKey} {own : List (World × World)}
    {r : Resource} (hw : Reachable w) (haloof : w.Aloof key)
    (hexec : Exec (Undisturbed key) w (reconcile key) own (.ok ()) w')
    (hresource : w.resources key = some r) (hnames : (r.spec.jobs.map JobSpec.name).Nodup) :
    (∃ r' s, w'.resources key = some r' ∧ r'.spec = r.spec ∧ r'.status = some s ∧
      s.Describes r ∧ w'.manager.Carries r (r.status.getD .initial) s) ∧
    ∀ step ∈ own, step.1.manager.Spares key step.2.manager := by
  have hgood := good_of_reachable hw
  have hthere : w.resources key ≠ none := hresource ▸ Option.some_ne_none r
  have haside := hexec.aside hgood haloof hthere (keeps_reconcile key w.issued)
  exact haside.settled hgood hresource hnames

/-! ### Interrupted reconciles -/

/-- Surroundings in which nothing fails, and no status is written. -/
def tend? (now : Instant) (w : World) : (c : DeskCall) → Option (c.Reply × World)
  | .store (.patchStatus _ _ _) => none
  | c => w.oblige? now c

theorem oblige?_of_tend? {now : Instant} {c : DeskCall} {reply : c.Reply}
    (h : w.tend? now c = some (reply, w')) : c.Harmless ∧ w.oblige? now c = some (reply, w') := by
  cases c with
  | store c =>
    cases c with
    | patchStatus k s version => exact absurd h (Option.some_ne_none _).symm
    | _ => exact ⟨trivial, h⟩
  | _ => exact ⟨trivial, h⟩

theorem right_tend? (now : Instant) : Chooser.Right (tend? now) :=
  fun _ _ _ _ h => answers_of_oblige? (oblige?_of_tend? h).2

/-- Surroundings in which nothing fails but that every write of a status is refused. -/
def refuse? (e : Fault) (now : Instant) (w : World) : (c : DeskCall) → Option (c.Reply × World)
  | .store (.patchStatus _ _ _) => some (.error e, w)
  | c => w.oblige? now c

theorem right_refuse? {e : Fault} (he : e.isMissing = false) (now : Instant) :
    Chooser.Right (refuse? e now) := by
  intro w c reply w' h
  cases c with
  | store c =>
    cases c with
    | patchStatus k s version =>
      obtain ⟨rfl, rfl⟩ := Prod.mk.inj (Option.some.inj h)
      exact .inr ⟨e, rfl, .inl ⟨rfl, fun hmissing => absurd (he.symm.trans hmissing) (by decide)⟩⟩
    | _ => exact @answers_of_oblige? w w' now _ reply h
  | _ => exact @answers_of_oblige? w w' now _ reply h

/-- A reconcile that is carried out with nothing failing, and after some calls of which one of the
procedures under way has made some calls. -/
def interrupted (now : Instant) (key : OwnerKey) (n place k : Nat) (w : World) :
    Option (Except Fault Unit × World) :=
  let (p, w) := lead (oblige? now) n (reconcile key) w
  follow? (oblige? now) p (attend (tend? now) place k w)

/-- Whether a computed run has succeeded, in a world that passes a test. -/
def ends (test : World → Bool) : Option (Except Fault Unit × World) → Bool
  | some (.ok (), w) => test w
  | _ => false

theorem exists_of_ends {test : World → Bool} {run : Option (Except Fault Unit × World)}
    (h : ends test run = true) : ∃ w, run = some (.ok (), w) ∧ test w = true := by
  unfold ends at h
  split at h
  · rename_i w
    exact ⟨w, rfl, h⟩
  · exact absurd h Bool.false_ne_true

theorem undisturbed_of_harmless (h : Amidst Happening.Harmless w w') : Undisturbed key w w' := by
  obtain ⟨_, ⟨c, reply, rfl, hharmless⟩, hhappens⟩ := h
  refine ⟨⟨.call c reply, trivial, hhappens⟩, ?_⟩
  cases hhappens with
  | @call _ w' ps qs c next reply hask hanswer =>
    have hsame : w'.resources key = World.resources { w with procedures := ps ++ qs } key := by
      refine resources_of_answers hanswer ?_
      rintro s version rfl
      exact hharmless
    exact hsame

theorem attend_undisturbed (now : Instant) (key : OwnerKey) (place k : Nat) (w : World) :
    Relation.ReflTransGen (Undisturbed key) w (attend (tend? now) place k w) := by
  have hrun : Relation.ReflTransGen (Amidst Happening.Harmless) w
      (attend (tend? now) place k w) := by
    refine attend_run (right_tend? now) (fun w c reply w' hreply => ?_) place k w
    exact ⟨c, reply, rfl, (oblige?_of_tend? hreply).1⟩
  exact Relation.ReflTransGen.mono (fun _ _ => undisturbed_of_harmless) _ _ hrun

theorem exec_of_interrupted {now : Instant} {key : OwnerKey} {n place k : Nat} {w w' : World}
    {result : Except Fault Unit} (h : interrupted now key n place k w = some (result, w')) :
    ∃ own, Exec (Undisturbed key) w (reconcile key) own result w' := by
  obtain ⟨own, hexec⟩ := exec_of_follow? (right_oblige? now) (Undisturbed key) h
  exact exec_of_lead (right_oblige? now) (hexec.of_run (attend_undisturbed now key place k _))

/-- The resource was just written, and a pass has begun. -/
def patrolled : World := { withWeb with procedures := [task sweep] }

theorem reachable_withWeb : Reachable withWeb :=
  (Reachable.new Zone.utc 0).step (.put web "0" (by decide))

/-- The pass looks for the new job before the status is written. -/
theorem withWeb_settled :
    patrolled.Aloof web.key ∧ ∃ own w',
      Exec (Undisturbed web.key) patrolled (reconcile web.key) own (.ok ()) w' ∧
      ∃ r s, w'.resources web.key = some r ∧ r.status = some s ∧ s.Describes web ∧
        ∃ c ∈ s.conditions, c.name = morning.name ∧
          ∃ queued, w'.manager.queue.get? c.jobId = some queued ∧ queued.owner = web.key := by
  have hreachable : Reachable patrolled := reachable_withWeb.step (.begin _ (.inr (.inl rfl)))
  have haloof : patrolled.Aloof web.key :=
    List.forall_mem_singleton.2 ⟨_, .collecting, .whole _⟩
  have hends : ends (fun _ => true) (interrupted ⟨0, 0⟩ web.key 10 0 3 patrolled) = true := by
    decide +kernel
  have hbuilt : (Job.build web morning "").toOption.isSome = true := by decide +kernel
  obtain ⟨job, hjob⟩ := Option.isSome_iff_exists.1 hbuilt
  obtain ⟨w', hinterrupted, _⟩ := exists_of_ends hends
  obtain ⟨own, hexec⟩ := exec_of_interrupted hinterrupted
  obtain ⟨⟨r, s, hr, _, hstatus, hdescribes, hcarries⟩, _⟩ := reconcile_settles hreachable haloof
    hexec (show patrolled.resources web.key = some web from rfl) (by decide)
  have hrun : ¬Reconcile.HasRun web.spec .initial morning := by
    rintro ⟨_, c, hc, _⟩
    exact absurd hc List.not_mem_nil
  obtain ⟨c, hc, hname, queued, _, hqueued, howner, _⟩ :=
    hcarries.queued morning List.mem_cons_self job (eq_ok_of_toOption hjob) hrun
  exact ⟨haloof, own, w', hexec, r, s, hr, hstatus, hdescribes, c, hc, hname, queued, hqueued,
    howner⟩

/-- Whether a reconcile of a resource that declares what can be built may succeed, with the resource
neither written nor deleted, and leave a status with nothing of it queued. -/
def Overturned (w : World) (key : OwnerKey) : Prop :=
  ∃ r own w' r' s, w.resources key = some r ∧ (r.spec.jobs.map JobSpec.name).Nodup ∧
    Exec (Undisturbed key) w (reconcile key) own (.ok ()) w' ∧ w'.resources key = some r' ∧
      r'.status = some s ∧ ¬w'.manager.Carries r (r.status.getD .initial) s

/-- Whether this is what an interruption comes to. -/
def overturns (key : OwnerKey) (n place k : Nat) (w : World) : Bool :=
  (w.resources key).any (fun r => decide (r.spec.jobs.map JobSpec.name).Nodup &&
    (r.status.getD .initial).conditions.isEmpty &&
      r.spec.jobs.any fun j => (Job.build r j "").toOption.isSome) &&
    ends (fun w' => w'.manager.queue.values.isEmpty && (w'.resources key).any (·.status.isSome))
      (interrupted ⟨0, 0⟩ key n place k w)

theorem overturned_of_overturns {n place k : Nat} (h : overturns key n place k w = true) :
    w.Overturned key := by
  obtain ⟨hdeclares, hends⟩ := Bool.and_eq_true_iff.1 h
  obtain ⟨r, hr, hdeclares⟩ := (Option.any_eq_true _ _).1 hdeclares
  obtain ⟨w', hinterrupted, hleaves⟩ := exists_of_ends hends
  simp only [Bool.and_eq_true, decide_eq_true_eq, List.isEmpty_iff] at hdeclares hleaves
  obtain ⟨⟨hnames, hconditions⟩, hbuilds⟩ := hdeclares
  obtain ⟨hempty, hwritten⟩ := hleaves
  obtain ⟨j, hj, hbuilds⟩ := List.any_eq_true.1 hbuilds
  obtain ⟨job, hjob⟩ := Option.isSome_iff_exists.1 hbuilds
  obtain ⟨r', hr', hwritten⟩ := (Option.any_eq_true _ _).1 hwritten
  obtain ⟨s, hs⟩ := Option.isSome_iff_exists.1 hwritten
  obtain ⟨own, hexec⟩ := exec_of_interrupted hinterrupted
  refine ⟨r, own, w', r', s, hr, hnames, hexec, hr', hs, fun hcarries => ?_⟩
  have hrun : ¬Reconcile.HasRun r.spec (r.status.getD .initial) j := by
    rintro ⟨_, c, hc, _⟩
    have hmem := (Reconcile.retained_sublist r.spec _).subset hc
    exact List.not_mem_nil (hconditions ▸ hmem)
  obtain ⟨_, _, _, queued, _, hqueued, _⟩ := hcarries.queued j hj job (eq_ok_of_toOption hjob) hrun
  have hmem := Table.mem_values.2 ⟨_, hqueued⟩
  exact List.not_mem_nil (hempty ▸ hmem)

/-- The resource was deleted and written once more, and only then the watch hears of the
deletion. -/
def forgetting : World :=
  let w := (withWeb.delete web.key).rewritten web "1"
  { w with procedures := [watchDeletions (.deleted web.key)] }

/-- Another reconcile of the resource is about to take all of its jobs out. -/
def reconciling : World := withWeb.attended (oblige? ⟨0, 0⟩) 3 (task (reconcile web.key))

/-- The resource without its jobs. -/
def bareWeb : Resource := { web with spec := { web.spec with jobs := [] } }

/-- The resource was reconciled and deleted, and a pass was told that it is missing. Of the resource
that was written then nothing was declared at first, while a reconcile that had begun before the
deletion has put the job in once more. -/
def misled : World :=
  let w := withWeb.carriedOut ⟨0, 0⟩ (task (reconcile web.key))
  let w := w.attended (oblige? ⟨0, 0⟩) 2 (task (reconcile web.key))
  let w := (w.delete web.key).attended (oblige? ⟨0, 0⟩) 2 (task sweep)
  let w := (w.rewritten bareWeb "bare").carriedOut ⟨0, 0⟩ (task (reconcile web.key))
  (attend (refuse? (.outdated "default/web") ⟨0, 0⟩) 2 10 w).rewritten web "again"

theorem reachable_forgetting : Reachable forgetting := by
  have hrewritten := reachable_rewritten (reachable_withWeb.step (.delete web.key)) web "1"
  exact hrewritten.step (.begin _ (.inr (.inr ⟨_, rfl⟩)))

theorem reachable_reconciling : Reachable reconciling :=
  reachable_attended reachable_withWeb (right_oblige? _) (.inl ⟨_, rfl⟩) 3

theorem reachable_misled : Reachable misled := by
  have hreconciles : Begun (task (reconcile web.key)) := .inl ⟨_, rfl⟩
  have hfirst := reachable_carriedOut reachable_withWeb hreconciles ⟨0, 0⟩
  have hcopied := reachable_attended hfirst (right_oblige? ⟨0, 0⟩) hreconciles 2
  have htold := reachable_attended (hcopied.step (.delete web.key)) (right_oblige? ⟨0, 0⟩)
    (.inr (.inl rfl)) 2
  have hbare := reachable_carriedOut (reachable_rewritten htold bareWeb "bare") hreconciles ⟨0, 0⟩
  have hthere : Fault.isMissing (.outdated "default/web") = false := rfl
  have hrefused := reachable_attend hbare (right_refuse? hthere ⟨0, 0⟩) 2 10
  exact reachable_rewritten hrefused web "again"

/-- A reconcile that succeeds, with its resource neither written nor deleted, may still leave nothing
queued, if an earlier deletion is being handled, another reconcile of the resource is under way, or
a pass that was told that it is missing. And it stores no status if it is told so itself when it
writes it, though the resource is there. -/
theorem reconcile_overturned :
    (Reachable forgetting ∧ forgetting.Overturned web.key) ∧
    (Reachable reconciling ∧ reconciling.Overturned web.key) ∧
    (Reachable misled ∧ misled.Overturned web.key) ∧
    ∃ w', follow? (refuse? (.missing "default/web") ⟨0, 0⟩) (reconcile web.key) withWeb =
        some (.ok (), w') ∧ (w'.resources web.key).map Resource.status = some none := by
  have hforgetting : overturns web.key 10 0 2 forgetting = true := by decide +kernel
  have hreconciling : overturns web.key 9 0 1 reconciling = true := by decide +kernel
  have hmisled : overturns web.key 8 2 1 misled = true := by decide +kernel
  have hrefused : ends (fun w' => decide ((w'.resources web.key).map Resource.status = some none))
      (follow? (refuse? (.missing "default/web") ⟨0, 0⟩) (reconcile web.key) withWeb) = true := by
    decide +kernel
  obtain ⟨w', hfollow, hstored⟩ := exists_of_ends hrefused
  exact ⟨⟨reachable_forgetting, overturned_of_overturns hforgetting⟩,
    ⟨reachable_reconciling, overturned_of_overturns hreconciling⟩,
    ⟨reachable_misled, overturned_of_overturns hmisled⟩, w', hfollow, of_decide_eq_true hstored⟩

end World

end CronScale
