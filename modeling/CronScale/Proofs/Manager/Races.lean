import CronScale.Proofs.Manager.Calls
import CronScale.Proofs.Manager.Reconciled
import CronScale.Proofs.Manager.Trace
/-!
# Many writers of one status

Every write of a resource gives it a version that it never had before, and every status is written
against the version of the copy that it was computed from. Whatever other procedures, users and
other writers of the status do in between, a status that is written was computed from the resource
that is stored at that moment, and a write that comes too late changes nothing
(`World.writes_from_stored`).
-/

namespace CronScale

open CronScale.Calendar

namespace DeskCall

/-- The last copy of a resource that was fetched, after a call was answered. -/
def copyAfter (key : OwnerKey) : (c : DeskCall) → c.Reply → Option Resource → Option Resource
  | .store (.fetch k), .ok r, copy => if k = key then r else copy
  | _, _, copy => copy

/-- Whether a status that a call writes was computed from a copy, and is written against its
version. -/
def From (key : OwnerKey) (computed : Resource → Status → Prop) (copy : Option Resource) :
    DeskCall → Prop
  | .store (.patchStatus k s version) =>
    k = key ∧ ∃ r, copy = some r ∧ version = r.metadata.resourceVersion ∧ computed r s
  | _ => True

theorem Harmless.from {c : DeskCall} (h : c.Harmless) (key : OwnerKey)
    (computed : Resource → Status → Prop) (copy : Option Resource) :
    c.From key computed copy := by
  cases c with
  | store c =>
    cases c with
    | patchStatus k s version => exact h.elim
    | _ => trivial
  | _ => trivial

end DeskCall

namespace Procedure

variable {α β : Type} {key : OwnerKey} {computed : Resource → Status → Prop}
  {copy : Option Resource} {p : Procedure Desk α}

/-- Whether every status that a procedure writes is computed from the copy of the resource that it
fetched last, and written against the version of this copy. -/
def FromCopy (key : OwnerKey) (computed : Resource → Status → Prop) :
    Procedure Desk α → Option Resource → Prop
  | .done _, _ => True
  | .ask c next, copy => c.From key computed copy ∧
    ∀ reply, FromCopy key computed (next reply) (c.copyAfter key reply copy)

theorem Asks.fromCopy {post : α → Prop} (h : p.Asks DeskCall.Harmless post) :
    p.FromCopy key computed copy := by
  induction p generalizing copy with
  | done a => trivial
  | ask c next ih => exact ⟨h.1.from key computed copy, fun reply => ih reply (h.2 reply)⟩

/-- A procedure that fetches nothing writes from the copy that there is. -/
theorem fromCopy_of_mayAsk (h : ∀ c, p.MayAsk c →
    c.From key computed copy ∧ ∀ reply, c.copyAfter key reply copy = copy) :
    p.FromCopy key computed copy := by
  induction p with
  | done a => trivial
  | ask c next ih =>
    obtain ⟨hfrom, hcopy⟩ := h c (.inl rfl)
    refine ⟨hfrom, fun reply => ?_⟩
    rw [hcopy reply]
    exact ih reply fun c' hc' => h c' (.inr ⟨reply, hc'⟩)

theorem Asks.task {test : DeskCall → Prop} {post : α → Prop} (h : p.Asks test post) :
    (World.task p).Asks test fun _ => True :=
  h.bind fun _ _ => trivial

theorem FromCopy.task (h : p.FromCopy key computed copy) :
    (World.task p).FromCopy key computed copy := by
  induction p generalizing copy with
  | done a => trivial
  | ask c next ih => exact ⟨h.1, fun reply => ih reply (h.2 reply)⟩

end Procedure

/-! ### What reconciles write -/

namespace Reconcile

variable {key : OwnerKey} {r : Resource}

/-- Whether a reconcile may come to a status when it works on a copy of a resource. -/
structure Computes (key : OwnerKey) (r : Resource) (s : Status) : Prop where
  asked : (settleResource key r).MayAsk
    (.store (.patchStatus key s r.metadata.resourceVersion))
  adopted : s = adopt r.spec (r.status.getD .initial) s.conditions
  conditions : ∀ c ∈ s.conditions, Stems r c

theorem computes_of_mayAsk {s : Status} {k : OwnerKey} {version : Option String}
    (h : (settleResource key r).MayAsk (.store (.patchStatus k s version))) :
    k = key ∧ version = r.metadata.resourceVersion ∧ Computes key r s := by
  obtain ⟨rfl, rfl, cs, hs, hcs⟩ := (asks_settleResource key r).of_mayAsk h
  have hconditions : s.conditions = cs := by rw [hs, conditions_adopt]
  exact ⟨rfl, rfl, h, hconditions ▸ hs, hconditions ▸ hcs⟩

theorem fromCopy_settleResource (key : OwnerKey) (r : Resource) :
    (settleResource key r).FromCopy key (Computes key) (some r) := by
  refine Procedure.fromCopy_of_mayAsk fun c hc => ?_
  have hworking := (asks_settleResource key r).of_mayAsk hc
  cases c with
  | store c =>
    cases c with
    | fetch k => exact hworking.elim
    | patchStatus k s version =>
      obtain ⟨hk, hversion, hcomputes⟩ := computes_of_mayAsk hc
      exact ⟨⟨hk, r, rfl, hversion, hcomputes⟩, fun _ => rfl⟩
    | publish r' e => exact ⟨trivial, fun _ => rfl⟩
  | _ => exact ⟨trivial, fun _ => rfl⟩

end Reconcile

theorem fromCopy_reconcile (key : OwnerKey) (copy : Option Resource) :
    (reconcile key).FromCopy key (Reconcile.Computes key) copy := by
  refine ⟨trivial, fun reply => ?_⟩
  match reply with
  | .error e => trivial
  | .ok none =>
    have hasks : Procedure.Asks DeskCall.Harmless (fun _ => True) (do
        let _ ← Desk.note key none
        let () ← Desk.startSweep
        pure (.ok () : Except Fault Unit)) := by
      refine (Procedure.asks_ask trivial).seq fun _ _ => ?_
      exact (Procedure.asks_ask trivial).seq fun _ _ => trivial
    exact hasks.fromCopy
  | .ok (some r) =>
    show (Reconcile.settleResource key r).FromCopy key _ (if key = key then some r else copy)
    rw [if_pos rfl]
    exact Reconcile.fromCopy_settleResource key r

/-! ### What recordings of outcomes write -/

namespace Record

/-- Whether a status differs from another one only in the conditions about one job, by their ids or
by their names: a new condition has taken their place. -/
structure Replaces (c : Condition) (s s' : Status) : Prop where
  target : s'.target = s.target
  excludeDates : s'.excludeDates = s.excludeDates
  matching : s'.conditions.filter c.matchesJob = [c]
  others : (s'.conditions.filter fun d => !c.matchesJob d) =
    s.conditions.filter fun d => !c.matchesJob d

theorem replaces_merged (c : Condition) (s : Status) : Replaces c s (merged s c) :=
  ⟨rfl, rfl, c.filter_mergeByJob s.conditions, c.filter_not_mergeByJob s.conditions⟩

/-- Whether a status is that of a copy of a resource with the conditions about a job replaced by
that of an outcome. -/
def Computes (job : Job) (outcome : Except Fault String) (r : Resource) (s : Status) : Prop :=
  ∃ now, Replaces (conditionOf job outcome now) (r.status.getD .initial) s

theorem fromCopy_attempts {job : Job} {outcome : Except Fault String} (now : Instant)
    (event : Event) (n : Nat) (last : Option (Resource × Fault)) (copy : Option Resource) :
    (attempts job.owner (conditionOf job outcome now) event n last).FromCopy job.owner
      (Computes job outcome) copy := by
  induction n generalizing last copy with
  | zero =>
    cases last with
    | none => trivial
    | some r => exact ⟨trivial, fun _ => trivial⟩
  | succ n ih =>
    refine ⟨trivial, fun reply => ?_⟩
    match reply with
    | .error e => exact ih last copy
    | .ok none => trivial
    | .ok (some r) =>
      refine ⟨⟨rfl, r, if_pos rfl, rfl, now, replaces_merged _ _⟩, fun reply => ?_⟩
      cases reply with
      | ok u => exact ⟨trivial, fun _ => trivial⟩
      | error e =>
        show Procedure.FromCopy _ _ (if e.isMissing then pure () else _) _
        split
        · trivial
        · exact ih _ _

end Record

theorem fromCopy_record (settings : ManagerSettings) (job : Job) (outcome : Except Fault String)
    (copy : Option Resource) :
    (record settings job outcome).FromCopy job.owner (Record.Computes job outcome) copy :=
  ⟨trivial, fun now => Record.fromCopy_attempts now _ _ _ copy⟩

namespace World

/-! ### Versions -/

/-- Whether every resource has a version, one of those that its key has ever had. -/
def Versioned (w : World) : Prop :=
  ∀ key r, w.resources key = some r → ∃ v ∈ w.versions key, r.metadata.resourceVersion = some v

/-- Whether every resource that is not as it was has a version that its key never had before. -/
structure Renews (w w' : World) : Prop where
  versions : ∀ key, w.versions key ⊆ w'.versions key
  resources : ∀ key r, w'.resources key = some r → w.resources key = some r ∨
    ∃ v ∈ w'.versions key, v ∉ w.versions key ∧ r.metadata.resourceVersion = some v

/-- What may happen while a procedure is carried out: any step, and writes of statuses by others,
against the versions of their copies. -/
inductive Meanwhile : World → World → Prop
  | step {w w' : World} : Step w w' → Meanwhile w w'
  | write {w w' : World} (key : OwnerKey) (s : Status) (version : String) :
      w.Patched key s (some version) w' → Meanwhile w w'

variable {w w' : World} {key : OwnerKey}

theorem renews_of_eq (hresources : w'.resources = w.resources)
    (hversions : w'.versions = w.versions) : Renews w w' where
  versions := fun _ => hversions ▸ List.Subset.refl _
  resources := fun _ _ hr => .inl (hresources ▸ hr)

theorem renews_write (r : Resource) {version : String} (hfresh : version ∉ w.versions key) :
    Renews w (w.write key r version) where
  versions := by
    intro k
    simp only [write]
    split
    · exact List.subset_cons_self _ _
    · exact List.Subset.refl _
  resources := by
    intro k r' hr'
    simp only [write] at hr' ⊢
    split at hr'
    · rename_i hk
      obtain rfl := Option.some.inj hr'
      subst hk
      exact .inr ⟨version, by simp, hfresh, rfl⟩
    · exact .inl hr'

theorem Patched.renews {s : Status} {version : Option String} (h : w.Patched key s version w') :
    Renews w w' := by
  obtain ⟨r, v, _, _, hfresh, rfl⟩ := h
  exact renews_write _ hfresh

theorem renews_of_answers {c : DeskCall} {reply : c.Reply} (h : w.Answers c reply w') :
    Renews w w' := by
  cases c with
  | store c =>
    cases c with
    | fetch k => exact h.1 ▸ renews_of_eq rfl rfl
    | patchStatus k s version =>
      rcases h with ⟨_, hpatched⟩ | ⟨_, _, ⟨rfl, _⟩ | ⟨_, hpatched⟩⟩
      · exact hpatched.renews
      · exact renews_of_eq rfl rfl
      · exact hpatched.renews
    | publish r e =>
      obtain rfl : w' = w := h
      exact renews_of_eq rfl rfl
  | manager mc =>
    obtain ⟨_, _, rfl⟩ := h
    exact renews_of_eq rfl rfl
  | freshId owner name =>
    obtain ⟨_, _, rfl⟩ := h
    exact renews_of_eq rfl rfl
  | publishCounts counts =>
    obtain rfl : w' = w := h
    exact renews_of_eq rfl rfl
  | startSweep =>
    obtain rfl : w' = _ := h
    exact renews_of_eq rfl rfl
  | startReruns jobs =>
    obtain rfl : w' = _ := h
    exact renews_of_eq rfl rfl

theorem Step.renews (h : Step w w') : Renews w w' := by
  cases h with
  | put r version hfresh => exact renews_write _ hfresh
  | delete k =>
    refine ⟨fun _ => List.Subset.refl _, fun k' r hr => ?_⟩
    simp only [World.delete] at hr
    split at hr
    · exact absurd hr (Option.some_ne_none r).symm
    · exact .inl hr
  | call next reply hask hanswer =>
    obtain ⟨hversions, hresources⟩ := renews_of_answers hanswer
    exact ⟨hversions, hresources⟩
  | _ => exact renews_of_eq rfl rfl

theorem Meanwhile.renews (h : Meanwhile w w') : Renews w w' := by
  cases h with
  | step h => exact h.renews
  | write key s version h => exact h.renews

theorem Versioned.renews (h : w.Versioned) (hrenews : Renews w w') : w'.Versioned := by
  intro key r hr
  rcases hrenews.resources key r hr with hr | ⟨v, hv, _, hversion⟩
  · obtain ⟨v, hv, hversion⟩ := h key r hr
    exact ⟨v, hrenews.versions key hv, hversion⟩
  · exact ⟨v, hv, hversion⟩

theorem versioned_of_reachable (h : Reachable w) : w.Versioned := by
  induction h with
  | new zone staleness => exact fun _ _ hr => absurd hr (Option.some_ne_none _).symm
  | step _ hstep ih => exact ih.renews hstep.renews

/-! ### Copies -/

/-- Whether a resource that has the version of a copy is as in the copy. -/
def Remembers (w : World) (key : OwnerKey) (copy : Option Resource) : Prop :=
  ∀ r, copy = some r → ∃ v ∈ w.versions key, r.metadata.resourceVersion = some v ∧
    ∀ r', w.resources key = some r' → r'.metadata.resourceVersion = some v → r' = r

theorem remembers_none (w : World) (key : OwnerKey) : w.Remembers key none :=
  fun r hr => absurd hr (Option.some_ne_none r).symm

theorem Versioned.remembers (h : w.Versioned) (key : OwnerKey) :
    w.Remembers key (w.resources key) := by
  intro r hr
  obtain ⟨v, hv, hversion⟩ := h key r hr
  exact ⟨v, hv, hversion, fun r' hr' _ => Option.some.inj (hr'.symm.trans hr)⟩

theorem Remembers.renews {copy : Option Resource} (h : w.Remembers key copy)
    (hrenews : Renews w w') : w'.Remembers key copy := by
  intro r hr
  obtain ⟨v, hv, hversion, hsame⟩ := h r hr
  refine ⟨v, hrenews.versions key hv, hversion, fun r' hr' hversion' => ?_⟩
  rcases hrenews.resources key r' hr' with hr' | ⟨v', _, hfresh, heq⟩
  · exact hsame r' hr' hversion'
  · obtain rfl := Option.some.inj (heq.symm.trans hversion')
    exact absurd hv hfresh

theorem Remembers.answers {copy : Option Resource} {c : DeskCall} {reply : c.Reply}
    (h : w.Remembers key copy) (hw : w.Versioned) (hanswer : w.Answers c reply w') :
    w'.Remembers key (c.copyAfter key reply copy) := by
  have hrenewed := h.renews (renews_of_answers hanswer)
  unfold DeskCall.copyAfter
  split
  · rename_i k r
    split
    · rename_i hk
      obtain ⟨rfl, hreply | ⟨e, hreply⟩⟩ := hanswer
      · obtain rfl := Except.ok.inj hreply
        exact hk ▸ hw.remembers k
      · exact absurd hreply (by simp)
    · exact hrenewed
  · exact hrenewed

/-! ### Writes -/

/-- What a call of a procedure does to the resources, if the procedure works on the resource with a
key. -/
inductive Deed.WritesFrom (key : OwnerKey) (computed : Resource → Status → Prop) (d : Deed) : Prop
  /-- A call that is no write leaves all resources as they are. -/
  | other (hcall : d.call.Harmless) (hsame : d.after.resources = d.before.resources)
  /-- A write that is refused leaves everything as it is. -/
  | refused (r : Resource) (s : Status)
      (hcall : d.call = .store (.patchStatus key s r.metadata.resourceVersion))
      (hcomputed : computed r s) (hsame : d.after = d.before)
  /-- A status that is written was computed from the resource that is stored. -/
  | written (r : Resource) (s : Status)
      (hcall : d.call = .store (.patchStatus key s r.metadata.resourceVersion))
      (hcomputed : computed r s) (hstored : d.before.resources key = some r)
      (hwritten : d.before.Patched key s r.metadata.resourceVersion d.after)

/-- A write from a copy lands only if the stored resource is as in the copy. -/
theorem Remembers.stored {r : Resource} {s : Status} (h : w.Remembers key (some r))
    (hpatched : w.Patched key s r.metadata.resourceVersion w') : w.resources key = some r := by
  obtain ⟨v, _, hversion, hsame⟩ := h r rfl
  obtain ⟨r', _, hr', hcurrent, _⟩ := hpatched
  rw [hversion] at hcurrent
  rcases hcurrent with hnone | hcurrent
  · exact absurd hnone (Option.some_ne_none v)
  · exact hsame r' hr' hcurrent.symm ▸ hr'

theorem Remembers.writesFrom {c : DeskCall} {reply : c.Reply} {copy : Option Resource}
    {computed : Resource → Status → Prop} (h : w.Remembers key copy)
    (hfrom : c.From key computed copy) (hanswer : w.Answers c reply w') :
    Deed.WritesFrom key computed ⟨w, c, w'⟩ := by
  have hother : c.Harmless → Deed.WritesFrom key computed ⟨w, c, w'⟩ := by
    intro hharmless
    refine .other hharmless (funext fun k => resources_of_answers hanswer ?_)
    rintro s version rfl
    exact hharmless
  cases c with
  | store c =>
    cases c with
    | patchStatus k s version =>
      obtain ⟨rfl, r, rfl, rfl, hcomputed⟩ := hfrom
      rcases hanswer with ⟨_, hpatched⟩ | ⟨_, _, ⟨hsame, _⟩ | ⟨_, hpatched⟩⟩
      · exact .written r s rfl hcomputed (h.stored hpatched) hpatched
      · exact .refused r s rfl hcomputed hsame
      · exact .written r s rfl hcomputed (h.stored hpatched) hpatched
    | _ => exact hother trivial
  | _ => exact hother trivial

/-- Whether a procedure under way will write from a copy, and the world has its version still only
if the resource is as in the copy. -/
def Careful (key : OwnerKey) (computed : Resource → Status → Prop) (w : World)
    (p : Procedure Desk Unit) : Prop :=
  w.Versioned ∧ ∃ copy, p.FromCopy key computed copy ∧ w.Remembers key copy

section

variable {computed : Resource → Status → Prop} {p : Procedure Desk Unit}

theorem Careful.renews (h : Careful key computed w p) (hrenews : Renews w w') :
    Careful key computed w' p := by
  obtain ⟨hversioned, copy, hfrom, hremembers⟩ := h
  exact ⟨hversioned.renews hrenews, copy, hfrom, hremembers.renews hrenews⟩

theorem Careful.answers {c : DeskCall} {next : c.Reply → Procedure Desk Unit} {reply : c.Reply}
    (h : Careful key computed w (.ask c next)) (hanswer : w.Answers c reply w') :
    Careful key computed w' (next reply) := by
  obtain ⟨hversioned, copy, hfrom, hremembers⟩ := h
  exact ⟨hversioned.renews (renews_of_answers hanswer), _, hfrom.2 reply,
    hremembers.answers hversioned hanswer⟩

end

/-- The procedures of a manager with what they may compute from a copy of the resource with a key:
reconciles of it, recordings of outcomes of its jobs, and those that write no status at all. -/
inductive Writer (key : OwnerKey) : Procedure Desk Unit → (Resource → Status → Prop) → Prop
  | reconcile : Writer key (task (reconcile key)) (Reconcile.Computes key)
  | record (settings : ManagerSettings) (job : Job) (outcome : Except Fault String)
      (howner : job.owner = key) :
      Writer key (record settings job outcome) (Record.Computes job outcome)
  | sweep : Writer key (task sweep) fun _ _ => False
  | watch (e : WatchEvent) : Writer key (watchDeletions e) fun _ _ => False

theorem Writer.fromCopy {p : Procedure Desk Unit} {computed : Resource → Status → Prop}
    (h : Writer key p computed) : p.FromCopy key computed none := by
  cases h with
  | reconcile => exact (fromCopy_reconcile key none).task
  | record settings job outcome howner =>
    subst howner
    exact fromCopy_record settings job outcome none
  | sweep =>
    have hharmless := asks_sweep.weaken (fun _ hc => hc.harmless) fun _ _ => trivial
    exact hharmless.fromCopy.task
  | watch e =>
    have hharmless := (asks_watchDeletions e).weaken (fun _ hc => hc.harmless) fun _ _ => trivial
    exact hharmless.fromCopy

/-- Whatever happens in between, everything that a procedure of the manager writes was computed from
the resource that is stored at that moment, and a write that comes too late changes nothing. -/
theorem writes_from_stored {p q : Procedure Desk Unit} {computed : Resource → Status → Prop}
    {deeds : List Deed} (hw : w.Versioned) (hp : Writer key p computed)
    (htrace : Trace Meanwhile w p deeds w' q) : ∀ d ∈ deeds, d.WritesFrom key computed := by
  have hcareful : Careful key computed w p := ⟨hw, none, hp.fromCopy, remembers_none w key⟩
  obtain ⟨_, hdeeds⟩ := htrace.invariant (fun _ _ _ h hstep => h.renews hstep.renews)
    (fun _ _ _ _ _ h hanswer => h.answers hanswer) hcareful
  intro d hd
  obtain ⟨_, _, ⟨_, _, hfrom, hremembers⟩, hanswer⟩ := hdeeds d hd
  exact hremembers.writesFrom hfrom.1 hanswer

theorem withWeb_written : ∃ deeds w',
    Trace Meanwhile withWeb (task (reconcile web.key)) deeds w' (.done ()) ∧
      ∃ d ∈ deeds, ∃ r s, d.before.resources web.key = some r ∧
        Reconcile.Computes web.key r s ∧
          d.before.Patched web.key s r.metadata.resourceVersion d.after := by
  have hreachable : Reachable withWeb := (Reachable.new Zone.utc 0).step (.put web "0" (by decide))
  have hends : (smooth? ⟨0, 0⟩ (task (reconcile web.key)) withWeb).isSome = true := by
    decide +kernel
  have hwrites : (smoothDeeds ⟨0, 0⟩ (task (reconcile web.key)) withWeb).any (fun d =>
      ((d.after.resources web.key).bind (·.status)).isSome &&
        ((d.before.resources web.key).bind (·.status)).isNone) = true := by
    decide +kernel
  obtain ⟨⟨_, w'⟩, hsmooth⟩ := Option.isSome_iff_exists.1 hends
  have htrace := trace_of_smooth? Meanwhile hsmooth
  have hdeeds := writes_from_stored (versioned_of_reachable hreachable) .reconcile htrace
  obtain ⟨d, hd, hdiffers⟩ := List.any_eq_true.1 hwrites
  simp only [Bool.and_eq_true, Option.isNone_iff_eq_none] at hdiffers
  refine ⟨_, w', htrace, d, hd, ?_⟩
  cases hdeeds d hd with
  | other _ hsame =>
    rw [hsame, hdiffers.2] at hdiffers
    exact absurd hdiffers.1 (by decide)
  | refused _ _ _ _ hsame =>
    rw [hsame, hdiffers.2] at hdiffers
    exact absurd hdiffers.1 (by decide)
  | written r s _ hcomputes hstored hpatched => exact ⟨r, s, hstored, hcomputes, hpatched⟩

end World

end CronScale
