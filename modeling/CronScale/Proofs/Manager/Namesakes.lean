import CronScale.Proofs.Manager.AtOnce
/-!
# Jobs that share a name

Several jobs of a resource may be declared under one name, though a complaint is made about it.
While the home of the resources does not fail, a reconcile succeeds. Where the jobs of one name are
declared alike, it leaves nothing to do for any later one (`World.namesakes_settle`). Where the last
job of a name is declared otherwise than the first, a condition that says what the last one asks for
is never retained, and every reconcile writes the status once more (`World.rivals_never_settle`).
-/

namespace CronScale

open CronScale.Calendar

namespace World

variable {w w' w'' : World} {key : OwnerKey} {r : Resource} {between : World → World → Prop}

/-! ### Runs in which the home of the resources does not fail -/

/-- A procedure that is carried out to its end with no call to the home of the resources failing,
and the calls that it makes. -/
inductive Served {α : Type} (between : World → World → Prop) :
    World → Procedure Desk α → List Deed → World → α → Prop
  | done (w : World) (a : α) : Served between w (.done a) [] w a
  | between {w w' w'' : World} {p : Procedure Desk α} {deeds : List Deed} {a : α} :
      between w w' → Served between w' p deeds w'' a → Served between w p deeds w'' a
  | ask {w w' w'' : World} {c : DeskCall} {next : c.Reply → Procedure Desk α} {reply : c.Reply}
      {deeds : List Deed} {a : α} :
      Answers w c reply w' → c.Served reply → Served between w' (next reply) deeds w'' a →
      Served between w (.ask c next) (⟨w, c, w'⟩ :: deeds) w'' a

section

variable {α β : Type} {p : Procedure Desk α} {deeds : List Deed} {a : α}

theorem Served.trace (h : Served between w p deeds w' a) :
    Trace between w p deeds w' (.done a) := by
  induction h with
  | done w a => exact .here w _
  | between hstep _ ih => exact .between hstep ih
  | ask hanswer _ _ ih => exact .ask hanswer ih

theorem Served.yields {post : α → Prop} (h : Served between w p deeds w' a)
    (hp : p.Yields post) : post a := by
  induction h with
  | done w a => exact hp
  | between _ _ ih => exact ih hp
  | ask _ hserved _ ih => exact ih (hp _ hserved)

/-- A sequence was carried out one part after the other. -/
theorem Served.split {f : α → Procedure Desk β} {b : β}
    (h : Served between w (p >>= f) deeds w'' b) :
    ∃ a w' first rest, Served between w p first w' a ∧ Served between w' (f a) rest w'' b ∧
      deeds = first ++ rest := by
  generalize hq : p >>= f = q at h
  induction h generalizing p with
  | done w b =>
    cases p with
    | done a =>
      obtain hq : f a = .done b := hq
      exact ⟨a, w, [], [], .done w a, hq ▸ .done w b, rfl⟩
    | ask c next => exact absurd hq (by simp [Bind.bind, Procedure.bind])
  | between hstep _ ih =>
    obtain ⟨a, w', first, rest, hfirst, hrest, hdeeds⟩ := ih hq
    exact ⟨a, w', first, rest, .between hstep hfirst, hrest, hdeeds⟩
  | @ask w w₁ _ c next reply deeds b hanswer hserved hnext ih =>
    cases p with
    | done a =>
      obtain hq : f a = .ask c next := hq
      exact ⟨a, w, [], _, .done w a, hq ▸ .ask hanswer hserved hnext, rfl⟩
    | ask c' next' =>
      obtain ⟨rfl, hnext'⟩ := Procedure.ask.inj hq
      obtain rfl := eq_of_heq hnext'
      obtain ⟨a, w', first, rest, hfirst, hrest, rfl⟩ := ih (p := next' reply) rfl
      exact ⟨a, w', _, rest, .ask hanswer hserved hfirst, hrest, rfl⟩

/-- What a procedure that was carried out has asked first. -/
theorem Served.first {c : DeskCall} {next : c.Reply → Procedure Desk α}
    (h : Served between w (.ask c next) deeds w' a) :
    ∃ w₁ reply w₂ rest, Relation.ReflTransGen between w w₁ ∧ Answers w₁ c reply w₂ ∧
      c.Served reply ∧ deeds = ⟨w₁, c, w₂⟩ :: rest ∧ Served between w₂ (next reply) rest w' a := by
  generalize hp : (.ask c next : Procedure Desk α) = p at h
  induction h with
  | done w a => exact absurd hp (by simp)
  | between hstep _ ih =>
    obtain ⟨w₁, reply, w₂, rest, hsteps, hrest⟩ := ih hp
    exact ⟨w₁, reply, w₂, rest, .head hstep hsteps, hrest⟩
  | ask hanswer hserved hrest _ =>
    cases hp
    exact ⟨_, _, _, _, .refl, hanswer, hserved, rfl, hrest⟩

theorem Served.result {test : DeskCall → Prop} {post : α → Prop}
    (h : Served between w p deeds w' a) (hp : p.Asks test post) : post a := by
  induction h with
  | done w a => exact hp
  | between _ _ ih => exact ih hp
  | ask _ _ _ ih => exact ih (hp.2 _)

theorem Served.resources {post : α → Prop} (h : Served (Apart key) w p deeds w' a)
    (hp : p.Asks DeskCall.Harmless post) : w'.resources key = w.resources key := by
  induction h with
  | done w a => rfl
  | between hstep _ ih => exact (ih hp).trans hstep.resource
  | ask hanswer _ _ ih =>
    refine (ih (hp.2 _)).trans (resources_of_answers hanswer ?_)
    rintro s version rfl
    exact hp.1

end

/-- What is carried out at once is carried out. -/
theorem Served.of_atOnce {α : Type} {now : Instant} {p : Procedure Desk α} {a : α}
    (between : World → World → Prop) (h : p.AtOnce now w w' a) :
    ∃ deeds, Served between w p deeds w' a := by
  induction p generalizing w with
  | done b =>
    obtain ⟨rfl, rfl⟩ := h
    exact ⟨[], .done w' a⟩
  | ask c next ih =>
    obtain ⟨reply, w₁, hanswer, hrest⟩ := h
    obtain ⟨deeds, hserved⟩ := ih reply hrest
    exact ⟨_, .ask hanswer.answers.1 hanswer.answers.2 hserved⟩

/-- A reconcile can be carried out with no call to the home of the resources failing. -/
theorem exists_reconcile (between : World → World → Prop) (h : w.Supplied) (key : OwnerKey) :
    ∃ deeds w', Served between w (reconcile key) deeds w' (.ok ()) := by
  obtain ⟨w', hcarried⟩ := exists_atOnce ⟨0, 0⟩ h key
  obtain ⟨deeds, hserved⟩ := Served.of_atOnce between hcarried
  exact ⟨deeds, w', hserved⟩

/-! ### Jobs that are declared alike -/

/-- What may happen from one reconcile to the next: anything that leaves the resource, its queued
jobs and what is known about it as they are, and further reconciles. -/
inductive Continues (key : OwnerKey) (w w' : World) : Prop
  | apart (hapart : Apart key w w')
  | reconcile {deeds : List Deed} {q : Procedure Desk (Except Fault Unit)}
      (htrace : Trace (fun _ _ => False) w (reconcile key) deeds w' q)

theorem Resting.apart {s : Status} (h : w.Resting key r s) (hw : w.Good) (hw' : w'.Good)
    (hapart : Apart key w w') : w'.Resting key r s := by
  have hr := hw.resources key r h.resource
  have hresource := hapart.resource.trans h.resource
  refine ⟨hw'.lockstep, hresource, h.status, hapart.complaint.trans h.complaint, h.adopted,
    h.retained, fun j hj => ?_, fun id job hjob howner => ?_⟩
  · obtain ⟨c, hfind, hrests⟩ := h.jobs j hj
    obtain ⟨hmem, _⟩ := Reconcile.find?_eq_some_name hfind
    -- Whatever is queued under the id of the condition belongs to the resource, before and after.
    have hsame : c.jobId ≠ "" → ∀ job, w'.manager.queue.get? c.jobId = some job ↔
        w.manager.queue.get? c.jobId = some job := by
      intro hne job
      have hissued := ((hr.status s h.status).conditions c hmem).issued hne
      have hissued' := (((hw'.resources key r hresource).status s h.status).conditions c
        hmem).issued hne
      constructor
      · exact fun hjob => (hapart.jobs _ job (hw'.owner_of_issued hissued' hjob)).1 hjob
      · exact fun hjob => (hapart.jobs _ job (hw.owner_of_issued hissued hjob)).2 hjob
    refine ⟨c, hfind, ?_⟩
    cases hrests with
    | refused e hbuild hstate hmessage => exact .refused e hbuild hstate hmessage
    | ran job hbuild hnamed hran habsent =>
      refine .ran job hbuild hnamed hran (Option.eq_none_iff_forall_ne_some.2 fun job' hjob' => ?_)
      exact absurd (habsent.symm.trans ((hsame hnamed job').1 hjob')) (Option.some_ne_none _).symm
    | queued job queued hbuild hnamed hran hqueued hdiffers =>
      exact .queued job queued hbuild hnamed hran ((hsame hnamed queued).2 hqueued) hdiffers
  · exact h.only id job ((hapart.jobs id job howner).1 hjob) howner

theorem Resting.continues {s : Status} (h : w.Resting key r s) (hw : w.Good)
    (hcontinues : Relation.ReflTransGen (Continues key) w w') : w'.Good ∧ w'.Resting key r s := by
  induction hcontinues with
  | refl => exact ⟨hw, h⟩
  | tail _ hstep ih =>
    obtain ⟨hgood, hresting⟩ := ih
    cases hstep with
    | apart hapart =>
      obtain ⟨hgood', _⟩ := hgood.step hapart.step
      exact ⟨hgood', hresting.apart hgood hgood' hapart⟩
    | reconcile htrace =>
      obtain ⟨rfl, _⟩ := (idles_reconcile hresting).trace htrace
      exact ⟨hgood, hresting⟩

/-- Where jobs of one name are declared alike and the home of the resources does not fail, with
nothing else touching the resource or its jobs: a reconcile can be carried out, it succeeds, and at
any time after it every further one writes no status, publishes no event and leaves the world, with
its queue and its agenda, as it is. -/
theorem namesakes_settle (hw : Reachable w) (hresource : w.resources key = some r)
    (halike : r.spec.Alike) :
    (∃ deeds w', Served (Apart key) w (reconcile key) deeds w' (.ok ())) ∧
    ∀ deeds w' a, Served (Apart key) w (reconcile key) deeds w' a → a = .ok () ∧
      ∀ w₁, Relation.ReflTransGen (Continues key) w' w₁ → ∀ later w₂ q,
        Trace (fun _ _ => False) w₁ (reconcile key) later w₂ q →
          w₂ = w₁ ∧ ∀ d ∈ later, d.call.Silent := by
  refine ⟨exists_reconcile (Apart key) (supplied_of_reachable hw) key, ?_⟩
  intro deeds w' a hserved
  obtain rfl := hserved.yields (yields_reconcile key)
  refine ⟨rfl, fun w₁ hcontinues later w₂ q htrace => ?_⟩
  obtain ⟨hgood, r', s, hresting, _⟩ :=
    resting_of_alike (good_of_reachable hw) hserved.trace hresource halike
  obtain ⟨_, hresting₁⟩ := hresting.continues hgood hcontinues
  exact (idles_reconcile hresting₁).trace htrace

/-- A resource that asks twice for the same. -/
def twins : Resource := { web with spec := { web.spec with jobs := [morning, morning] } }

/-- The world in which it was just written. -/
def withTwins : World := (new Zone.utc 0).write twins.key twins "0"

theorem twins_settled : ¬(twins.spec.jobs.map JobSpec.name).Nodup ∧
    ∃ deeds w', Served (Apart twins.key) withTwins (reconcile twins.key) deeds w' (.ok ()) ∧
      ∀ w₁, Relation.ReflTransGen (Continues twins.key) w' w₁ → ∀ later w₂ q,
        Trace (fun _ _ => False) w₁ (reconcile twins.key) later w₂ q →
          w₂ = w₁ ∧ ∀ d ∈ later, d.call.Silent := by
  have hreachable : Reachable withTwins :=
    (Reachable.new Zone.utc 0).step (.put twins "0" (by decide))
  have hsame : ∀ j ∈ twins.spec.jobs, j = morning := by
    intro j hj
    simpa [twins] using hj
  obtain ⟨⟨deeds, w', hserved⟩, hsettles⟩ := namesakes_settle hreachable
    (show withTwins.resources twins.key = some twins from rfl)
    (fun j hj j' hj' _ => (hsame j hj).trans (hsame j' hj').symm)
  exact ⟨by decide, deeds, w', hserved, (hsettles deeds w' _ hserved).2⟩

end World

/-! ### Jobs that are declared otherwise -/

/-- The last job that is declared under a name. -/
def Spec.last? (spec : Spec) (name : String) : Option JobSpec :=
  (spec.jobs.filter (·.name == name)).getLast?

/-- Whether the last job that is declared under a name is declared otherwise than the first. -/
def Spec.Contests (spec : Spec) (name : String) : Prop :=
  ∃ first last, spec.jobs.find? (·.name == name) = some first ∧ spec.last? name = some last ∧
    ∀ c, Reconcile.unchanged c last = true → Reconcile.unchanged c first = false

namespace Reconcile

variable {key : OwnerKey} {r : Resource} {j : JobSpec} {js : List JobSpec} {name : String}
  {left : List Condition} {d d' : Draft}

/-- Whether a draft has changed and has for a name a condition that says what a job asks for, if
there is one that has had its turn. -/
def Says (name : String) (done : Option JobSpec) (d : Draft) : Prop :=
  ∀ j, done = some j → d.changed = true ∧
    ∃ c, d.conditions.find? (·.name == name) = some c ∧ unchanged c j = true

theorem says_put (d : Draft) {c : Condition} (hname : c.name = name)
    (hunchanged : unchanged c j = true) : Says name (some j) (d.put c) := by
  intro j' hj'
  obtain rfl := Option.some.inj hj'
  exact ⟨rfl, c, find?_put d hname, hunchanged⟩

theorem Says.alters {done : Option JobSpec} {name' : String} (h : Says name done d)
    (halters : Alters name' d d') (hne : name ≠ name') : Says name done d' := by
  intro j hj
  obtain ⟨hchanged, c, hfind, hunchanged⟩ := h j hj
  refine ⟨?_, c, (halters.others name hne).trans hfind, hunchanged⟩
  cases hchanged' : d'.changed with
  | true => rfl
  | false => exact absurd ((halters.unchanged hchanged').1.symm.trans hchanged) (by decide)

/-- A job without a retained condition leaves one that says what it asks for, whatever had its turn
before. -/
theorem says_settleJob (hleft : left.find? (·.name == j.name) = none) (d : Draft) :
    (settleJob key r left j d).Asks DeskCall.Harmless (Says j.name (some j)) := by
  refine (Procedure.asks_ask trivial).seq fun now _ => ?_
  simp only [hleft]
  split
  · rename_i e _
    exact says_put d rfl (unchanged_conditionOf j "" .failed now (buildFailure j.name e))
  · rename_i job _
    refine (asks_chooseId trivial trivial).seq fun p _ => ?_
    refine (Procedure.asks_ask trivial).seq fun reply _ => ?_
    cases reply with
    | ok change =>
      show Procedure.Asks _ _ (if change = .unchanged ∧ false = true then pure p.2 else pure _)
      rw [if_neg (by simp)]
      exact says_put p.2 rfl (unchanged_conditionOf j p.1 .submitted now "")
    | error e =>
      exact says_put p.2 rfl (unchanged_conditionOf j p.1 .failed now (queueFailure j.name e))

theorem says_settleJobs {done : Option JobSpec} (hleft : left.find? (·.name == name) = none)
    (hd : Says name done d) : (settleJobs key r left js d).Asks DeskCall.Harmless
      (Says name ((js.filter (·.name == name)).getLast?.or done)) := by
  induction js generalizing d done with
  | nil => exact hd
  | cons j js ih =>
    by_cases hname : j.name = name
    · subst hname
      refine (says_settleJob hleft d).seq fun d' hd' => ?_
      simpa [List.getLast?_cons, Option.or_some] using ih hd'
    · have hother : (settleJob key r left j d).Asks DeskCall.Harmless (Alters j.name d) :=
        asks_settleJob_alters trivial trivial trivial (fun _ _ _ => trivial) fun _ _ _ => trivial
      refine hother.seq fun d' halters => ?_
      simpa [hname] using ih (hd.alters halters fun heq => hname heq.symm)

/-- Where no condition is retained for a name, the draft has changed and says in the end what the
last job of the name asks for. -/
theorem says_draft
    (hleft : (retained r.spec (r.status.getD .initial)).find? (·.name == name) = none) :
    (draft key r).Asks DeskCall.Harmless (Says name (r.spec.last? name)) := by
  refine (asks_complain trivial fun _ => trivial).seq fun _ _ => ?_
  refine (asks_divide (fun _ _ => trivial) trivial r.spec).seq fun p hp => ?_
  subst hp
  have hnone : ∀ d, Says name none d := fun _ _ hj => absurd hj (by simp)
  rw [← Option.or_none (o := r.spec.last? name)]
  exact says_settleJobs hleft (hnone _)

end Reconcile

namespace World

variable {w w' w'' : World} {key : OwnerKey} {r : Resource} {name : String}

/-- Whether the last job of a name is declared otherwise than the first for a resource, and no
condition of the name is as the first one asks for. -/
def Contested (w : World) (key : OwnerKey) (name : String) : Prop :=
  ∃ r, w.resources key = some r ∧ r.spec.Contests name ∧
    (Reconcile.retained r.spec (r.status.getD .initial)).find? (·.name == name) = none

/-- A write of the status of a resource that was made. -/
def Deed.Wrote (d : Deed) (key : OwnerKey) : Prop :=
  ∃ s version, d.call = .store (.patchStatus key s version) ∧ d.before.Patched key s version d.after

/-- A write of the status goes through. -/
theorem wrote_of_writeStatus {s : Status} {deeds : List Deed} {a : Except Fault Unit}
    (h : Served (Apart key) w (Reconcile.writeStatus key r s) deeds w' a) :
    (∃ d ∈ deeds, d.Wrote key) ∧ ∃ r₀ r', w.resources key = some r₀ ∧
      w'.resources key = some r' ∧ r'.spec = r₀.spec ∧ r'.status = some s := by
  obtain ⟨w₁, reply, w₂, rest, hsteps, hanswer, hserved, rfl, hrest⟩ := Served.first h
  obtain rfl : reply = .ok () := hserved
  have hpatched : w₁.Patched key s r.metadata.resourceVersion w₂ := by
    rcases hanswer with ⟨_, hpatched⟩ | ⟨e, he, _⟩
    · exact hpatched
    · exact absurd he (by simp)
  obtain ⟨r₀, r', hr₀, hr', hspec, hstatus⟩ := hpatched.resource
  have hdone : Procedure.Asks DeskCall.Harmless (fun _ => True)
      (pure (.ok ()) : Procedure Desk (Except Fault Unit)) := trivial
  refine ⟨⟨_, List.mem_cons_self, s, _, rfl, hpatched⟩, r₀, r', ?_, ?_, hspec, hstatus⟩
  · rw [← resource_of_apart hsteps, hr₀]
  · rw [Served.resources hrest hdone, hr']

/-- A changed draft is written. -/
theorem wrote_of_finish {d : Draft} {deeds : List Deed} {a : Except Fault Unit}
    (h : Served (Apart key) w (Reconcile.finish key r d) deeds w' a) (hchanged : d.changed = true) :
    (∃ e ∈ deeds, e.Wrote key) ∧ ∃ r₀ r', w.resources key = some r₀ ∧
      w'.resources key = some r' ∧ r'.spec = r₀.spec ∧
        r'.status = some (Reconcile.adopt r.spec (r.status.getD .initial) d.conditions) := by
  have hretains : (Desk.retainOwned key (Reconcile.idsNamed d.conditions)).Asks DeskCall.Harmless
      fun _ => True := Procedure.asks_ask trivial
  obtain ⟨_, w₁, first, rest, hfirst, hrest, rfl⟩ := Served.split h
  simp only [hchanged, if_true] at hrest
  obtain ⟨⟨e, he, hwrote⟩, r₀, r', hr₀, hrest⟩ := wrote_of_writeStatus hrest
  rw [hfirst.resources hretains] at hr₀
  exact ⟨⟨e, List.mem_append_right _ he, hwrote⟩, r₀, r', hr₀, hrest⟩

/-- A condition that says what the last job of a name asks for is not retained. -/
theorem retained_eq_none {spec : Spec} {s : Status} {last : JobSpec}
    (hcontests : spec.Contests name) (hlast : spec.last? name = some last)
    (hsaid : ∃ c, s.conditions.find? (·.name == name) = some c ∧
      Reconcile.unchanged c last = true)
    (hdistinct : (s.conditions.map Condition.name).Nodup) :
    (Reconcile.retained spec s).find? (·.name == name) = none := by
  obtain ⟨first, last', hfirst, hlast', hdiffers⟩ := hcontests
  obtain rfl := Option.some.inj (hlast.symm.trans hlast')
  obtain ⟨c, hfind, hunchanged⟩ := hsaid
  obtain ⟨hmem, hname⟩ := Reconcile.find?_eq_some_name hfind
  refine List.find?_eq_none.2 fun c' hc' hname' => ?_
  have hname' : c'.name = name := by simpa using hname'
  have hmem' := (Reconcile.retained_sublist spec s).subset hc'
  obtain rfl := eq_of_nodup hdistinct hmem' hmem (hname'.trans hname.symm)
  unfold Reconcile.retained at hc'
  split at hc'
  · exact absurd hc' List.not_mem_nil
  · have hretains := (List.mem_filter.1 hc').2
    rw [Reconcile.retains, hname, hfirst, Option.any_some, hdiffers _ hunchanged] at hretains
    exact absurd hretains (by decide)

theorem Served.good {deeds : List Deed} {a : Except Fault Unit} (hw : w.Good)
    (h : Served (Apart key) w (reconcile key) deeds w' a) : w'.Good := by
  obtain ⟨own, hexec⟩ := (h.trace.mono fun _ _ h => h.toAside).exec
  obtain ⟨_, hgood, _⟩ :=
    hexec.ensures hw (keeps_reconcile key w.issued) (Procedure.ensures_true _ _)
  exact hgood

/-- Every reconcile of a contested resource writes its status, and leaves it contested. -/
theorem Contested.reconcile {deeds : List Deed} {a : Except Fault Unit} (h : w.Contested key name)
    (hw : w.Good) (hserved : Served (Apart key) w (reconcile key) deeds w' a) :
    (∃ d ∈ deeds, d.Wrote key) ∧ w'.Contested key name := by
  have hgood' := hserved.good hw
  obtain ⟨r, hresource, hcontests, hleft⟩ := h
  obtain ⟨w₁, reply, w₂, rest, hsteps, hanswer, ⟨fetched, rfl⟩, rfl, hrest⟩ := Served.first hserved
  obtain ⟨rfl, hreply⟩ := hanswer
  have hresource₁ : w₂.resources key = some r := (resource_of_apart hsteps).trans hresource
  obtain rfl : fetched = some r := by
    rcases hreply with hreply | ⟨e, he⟩
    · rw [hresource₁] at hreply
      exact Except.ok.inj hreply
    · exact absurd he (by simp)
  have hrest : Served (Apart key) w₂ (Reconcile.settleResource key r) rest w' a := hrest
  rw [Reconcile.settleResource_eq] at hrest
  obtain ⟨d, w₃, first, later, hdrafted, hfinished, rfl⟩ := hrest.split
  obtain ⟨j, last, hfirst, hlast, hdiffers⟩ := hcontests
  obtain ⟨hchanged, hsaid⟩ := hdrafted.result (Reconcile.says_draft hleft) last hlast
  have hresource₃ := (hdrafted.resources (Reconcile.harmless_draft key r)).trans hresource₁
  obtain ⟨⟨e, he, hwrote⟩, r₀, r', hr₀, hr', hspec, hstatus⟩ := wrote_of_finish hfinished hchanged
  obtain rfl := Option.some.inj (hresource₃.symm.trans hr₀)
  refine ⟨⟨e, List.mem_cons_of_mem _ (List.mem_append_right _ he), hwrote⟩, r', hr', ?_, ?_⟩
  · rw [hspec]
    exact ⟨j, last, hfirst, hlast, hdiffers⟩
  · have hdistinct := ((hgood'.resources key r' hr').status _ hstatus).distinct
    rw [hspec, hstatus, Option.getD_some]
    rw [← Reconcile.conditions_adopt r.spec (r.status.getD .initial) d.conditions] at hsaid
    exact retained_eq_none ⟨j, last, hfirst, hlast, hdiffers⟩ hlast hsaid hdistinct

/-- A number of reconciles with no call to the home of the resources failing and nothing else
touching the resource or its jobs. -/
inductive Repeats (key : OwnerKey) : Nat → World → World → Prop
  | none (w : World) : Repeats key 0 w w
  | reconcile {n : Nat} {w w' w'' : World} {deeds : List Deed} {a : Except Fault Unit} :
      Served (Apart key) w (CronScale.reconcile key) deeds w' a → Repeats key n w' w'' →
      Repeats key (n + 1) w w''

theorem Contested.repeats {n : Nat} (h : w.Contested key name) (hw : w.Good)
    (hrepeats : Repeats key n w w') : w'.Contested key name ∧ w'.Good := by
  induction hrepeats with
  | none w => exact ⟨h, hw⟩
  | reconcile hserved _ ih =>
    obtain ⟨_, hcontested⟩ := h.reconcile hw hserved
    exact ih hcontested (hserved.good hw)

theorem Served.supplied {deeds : List Deed} {a : Except Fault Unit}
    {p : Procedure Desk (Except Fault Unit)} (h : w.Supplied)
    (hserved : Served (Apart key) w p deeds w' a) : w'.Supplied := by
  induction hserved with
  | done w a => exact h
  | between hstep _ ih => exact ih (h.step hstep.step)
  | ask hanswer _ _ ih => exact ih (h.answers hanswer)

theorem exists_repeats (h : w.Supplied) (key : OwnerKey) (n : Nat) : ∃ w', Repeats key n w w' := by
  induction n generalizing w with
  | zero => exact ⟨w, .none w⟩
  | succ n ih =>
    obtain ⟨deeds, w₁, hserved⟩ := exists_reconcile (Apart key) h key
    obtain ⟨w', hrepeats⟩ := ih (hserved.supplied h)
    exact ⟨w', .reconcile hserved hrepeats⟩

theorem Repeats.supplied {n : Nat} (hrepeats : Repeats key n w w') (h : w.Supplied) :
    w'.Supplied := by
  induction hrepeats with
  | none w => exact h
  | reconcile hserved _ ih => exact ih (hserved.supplied h)

/-- Where the last job of a name is declared otherwise than the first, and no condition is as the
first one asks for, every reconcile writes the status, after however many others. -/
theorem contested_never_settles (hw : Reachable w) (h : w.Contested key name) (n : Nat) :
    (∃ w', Repeats key n w w') ∧ ∀ w', Repeats key n w w' →
      (∃ deeds w'', Served (Apart key) w' (CronScale.reconcile key) deeds w'' (.ok ())) ∧
      ∀ deeds w'' a, Served (Apart key) w' (CronScale.reconcile key) deeds w'' a →
        ∃ d ∈ deeds, d.Wrote key := by
  have hsupplied := supplied_of_reachable hw
  refine ⟨exists_repeats hsupplied key n, fun w' hrepeats => ?_⟩
  obtain ⟨hcontested, hgood⟩ := h.repeats (good_of_reachable hw) hrepeats
  refine ⟨exists_reconcile (Apart key) (hrepeats.supplied hsupplied) key, ?_⟩
  exact fun deeds w'' a hserved => (hcontested.reconcile hgood hserved).1

/-- Another size every evening, under the name of the one for the morning. -/
def nightly : JobSpec := ⟨"up", "0 0 20 * * *", false, 1⟩

/-- A resource that asks for both. -/
def rivals : Resource := { web with spec := { web.spec with jobs := [morning, nightly] } }

/-- The world in which it was just written. -/
def withRivals : World := (new Zone.utc 0).write rivals.key rivals "0"

theorem contested_withRivals : withRivals.Contested rivals.key "up" := by
  refine ⟨rivals, rfl, ⟨morning, nightly, by decide, by decide, fun c hc => ?_⟩, by decide⟩
  rw [Reconcile.unchanged, Bool.and_eq_true, beq_iff_eq] at hc
  simp [Reconcile.unchanged, hc.2, morning, nightly]

/-- They never settle. -/
theorem rivals_never_settle : Reachable withRivals ∧
    withRivals.resources rivals.key = some rivals ∧ ∀ n,
      (∃ w', Repeats rivals.key n withRivals w') ∧ ∀ w', Repeats rivals.key n withRivals w' →
        (∃ deeds w'', Served (Apart rivals.key) w' (CronScale.reconcile rivals.key) deeds w''
          (.ok ())) ∧
        ∀ deeds w'' a, Served (Apart rivals.key) w' (CronScale.reconcile rivals.key) deeds w'' a →
          ∃ d ∈ deeds, d.Wrote rivals.key := by
  have hreachable : Reachable withRivals :=
    (Reachable.new Zone.utc 0).step (.put rivals "0" (by decide))
  exact ⟨hreachable, rfl, contested_never_settles hreachable contested_withRivals⟩

end World

end CronScale
