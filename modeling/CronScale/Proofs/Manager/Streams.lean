import CronScale.Proofs.Manager.Attended
import CronScale.Proofs.Manager.Beside
import CronScale.Proofs.Manager.Reconciled
import CronScale.Proofs.Manager.Recurring
import CronScale.Proofs.Manager.Trace
/-!
# Two streams about one resource

The controller reconciles a resource after each of its writes, and the watch for deletions is told
of its writes and deletions in their order. The two go on side by side, each at its own pace. When
both have come to an end and no call to the home of the resources has failed, no job is queued for a
resource that is missing, and for a resource that is there queue and agenda are as its last
reconcile left them, unless something else has taken its jobs out or written its status since that
reconcile was begun (`Streams.streams_settle`). The watch does so where the news that an earlier
resource under the same key was deleted comes late: then no jobs are left of the resource that took
its place (`Streams.recreated_forgotten`).
-/

namespace CronScale

open CronScale.Calendar

/-- A world with the two streams about one resource: the reconcile that the controller is at, and
what the watch for deletions has not delivered yet. -/
structure Streams where
  world : World
  /-- What is left of the last reconcile. -/
  controller : Procedure Desk (Except Fault Unit)
  pending : List WatchEvent
  /-- Whether the resource was written after the last reconcile was begun. -/
  owed : Bool
  /-- Whether something else has taken its jobs out or written its status since then. -/
  disturbed : Bool

namespace Streams

/-- The steps of the two streams. No copy of the resource fails to come, and no status is written
for it that is told to be missing. -/
inductive Step (key : OwnerKey) : Streams → Streams → Prop
  | put {s : Streams} (r : Resource) (version : String) (hkey : r.key = key)
      (hfresh : version ∉ s.world.versions key) :
      Step key s { s with
        world := s.world.write key
          { r with status := (s.world.resources key).bind (·.status) } version
        pending := s.pending ++ [.applied key]
        owed := true }
  | delete {s : Streams} : Step key s { s with
      world := s.world.delete key
      pending := s.pending ++ [.deleted key] }
  /-- The watch begins anew, and what was not delivered yet goes unseen. -/
  | relist {s : Streams} (keys : List OwnerKey) : Step key s { s with pending := [.restarted keys] }
  /-- A reconcile is begun when the one before it has come to an end. -/
  | begin {s : Streams} (result : Except Fault Unit) (hdone : s.controller = .done result) :
      Step key s { s with controller := reconcile key, owed := false, disturbed := false }
  | call {s : Streams} {w' : World} {c : DeskCall}
      (next : c.Reply → Procedure Desk (Except Fault Unit)) (reply : c.Reply)
      (hask : s.controller = .ask c next) (hanswer : s.world.Answers c reply w')
      (htold : c.Told key reply) (hthere : c.Writes key → s.world.resources key ≠ none) :
      Step key s { s with world := w', controller := next reply }
  | deliver {s : Streams} {e : WatchEvent} {es : List WatchEvent} (hpending : s.pending = e :: es) :
      Step key s { s with
        world := { s.world with procedures := watchDeletions e :: s.world.procedures }
        pending := es }
  /-- Something happens that disturbs nothing. -/
  | aside {s : Streams} {w' : World}
      (hgentle : World.Amidst (Happening.Gentle key (s.world.Holds key)) s.world w') :
      Step key s { s with world := w' }
  /-- Anything else happens beside the two streams. -/
  | disturb {s : Streams} {w' : World} (hbeside : World.Amidst (Happening.Beside key) s.world w') :
      Step key s { s with world := w', disturbed := true }

/-- Whether neither the resource nor a job of it has been there yet, and nothing is under way. -/
structure Fresh (key : OwnerKey) (s : Streams) : Prop where
  reachable : World.Reachable s.world
  missing : s.world.resources key = none
  empty : ∀ id, ¬s.world.Holds key id
  procedures : s.world.procedures = []
  controller : s.controller = .done (.ok ())

/-- Whether everything was delivered, the last reconcile has succeeded and was begun after the last
write, and nothing is under way any more. -/
structure Quiet (s : Streams) : Prop where
  pending : s.pending = []
  controller : s.controller = .done (.ok ())
  owed : s.owed = false
  procedures : ∀ p ∈ s.world.procedures, p = .done ()

variable {key : OwnerKey} {s s' : Streams}

/-! ### Streams that are computed -/

/-- Whether chosen answers never fail to tell of a resource, and let its status be written only
while it is there. -/
def Careful (key : OwnerKey) (answer : World.Chooser) : Prop :=
  ∀ w c reply w', answer w c = some (reply, w') →
    c.Told key reply ∧ (c.Writes key → w.resources key ≠ none)

theorem careful_oblige? (key : OwnerKey) (now : Instant) : Careful key (World.oblige? now) := by
  intro w c reply w' h
  cases c with
  | store c =>
    cases c with
    | fetch k =>
      obtain ⟨rfl, rfl⟩ := Prod.mk.inj (Option.some.inj h)
      exact ⟨fun _ => ⟨_, rfl⟩, False.elim⟩
    | patchStatus k status version =>
      refine ⟨trivial, ?_⟩
      rintro rfl hnone
      simp only [World.oblige?, hnone] at h
      exact absurd h (Option.some_ne_none _).symm
    | publish r event => exact ⟨trivial, False.elim⟩
  | _ => exact ⟨trivial, False.elim⟩

theorem careful_obligeAs? (key : OwnerKey) (id : String) (now : Instant) :
    Careful key (World.obligeAs? id now) := by
  intro w c reply w' h
  cases c with
  | freshId owner name => exact ⟨trivial, False.elim⟩
  | _ => exact careful_oblige? key now w _ reply w' h

variable {answer : World.Chooser} {w w' : World}

/-- What the controller is computed to do is a run of the streams. -/
theorem follow_run (s : Streams) (hright : answer.Right) (hcareful : Careful key answer)
    {p : Procedure Desk (Except Fault Unit)} {result : Except Fault Unit}
    (h : World.follow? answer p w = some (result, w')) :
    Relation.ReflTransGen (Step key) { s with world := w, controller := p }
      { s with world := w', controller := .done result } := by
  induction p generalizing w with
  | done a =>
    obtain ⟨rfl, rfl⟩ := Prod.mk.inj (Option.some.inj h)
    exact .refl
  | ask c next ih =>
    obtain ⟨⟨reply, w₁⟩, hreply, hrest⟩ := Option.bind_eq_some_iff.1 h
    obtain ⟨htold, hthere⟩ := hcareful _ _ _ _ hreply
    exact .head (.call next reply rfl (hright _ _ _ _ hreply) htold hthere) (ih reply hrest)

/-- What happens beside the two streams is part of a run of them. -/
theorem beside_run (hrun : Relation.ReflTransGen (World.Amidst (Happening.Beside key)) s.world w') :
    ∃ disturbed, Relation.ReflTransGen (Step key) s
      { s with world := w', disturbed := disturbed } := by
  induction hrun with
  | refl => exact ⟨s.disturbed, .refl⟩
  | tail _ hstep ih =>
    obtain ⟨_, hrun⟩ := ih
    exact ⟨true, hrun.tail (.disturb hstep)⟩

/-- The two streams after a resource was written, unless the version is taken. -/
def written (r : Resource) (version : String) (s : Streams) : Streams :=
  if version ∈ s.world.versions r.key then s
  else { s with
    world := s.world.write r.key
      { r with status := (s.world.resources r.key).bind (·.status) } version
    pending := s.pending ++ [.applied r.key]
    owed := true }

theorem written_run (r : Resource) (version : String) (s : Streams) :
    Relation.ReflTransGen (Step r.key) s (s.written r version) := by
  unfold written
  split
  · exact .refl
  · rename_i hfresh
    exact .single (.put r version rfl hfresh)

/-- The two streams after the resource was deleted. -/
def removed (key : OwnerKey) (s : Streams) : Streams :=
  { s with world := s.world.delete key, pending := s.pending ++ [.deleted key] }

theorem removed_run (key : OwnerKey) (s : Streams) :
    Relation.ReflTransGen (Step key) s (s.removed key) :=
  .single .delete

/-- The two streams after a reconcile with chosen answers, unless one is under way or comes to no
end. -/
def reconciled (answer : World.Chooser) (key : OwnerKey) (s : Streams) : Streams :=
  match s.controller, World.follow? answer (reconcile key) s.world with
  | .done _, some (result, w) =>
    { s with world := w, controller := .done result, owed := false, disturbed := false }
  | _, _ => s

theorem reconciled_run (hright : answer.Right) (hcareful : Careful key answer) (s : Streams) :
    Relation.ReflTransGen (Step key) s (s.reconciled answer key) := by
  unfold reconciled
  split
  · rename_i former result w hdone hfollow
    refine .head (.begin former hdone) ?_
    exact follow_run { s with owed := false, disturbed := false } hright hcareful hfollow
  · exact .refl

/-- The two streams after what was not delivered yet was delivered, and nothing done about it. -/
def delivered (s : Streams) : Streams :=
  { s with
    world := { s.world with
      procedures := (s.pending.map watchDeletions).reverse ++ s.world.procedures }
    pending := [] }

theorem delivered_run (key : OwnerKey) (s : Streams) :
    Relation.ReflTransGen (Step key) s s.delivered := by
  obtain ⟨w, controller, pending, owed, disturbed⟩ := s
  induction pending generalizing w with
  | nil => exact .refl
  | cons e es ih =>
    refine .head (.deliver rfl) ?_
    have hrest := ih { w with procedures := watchDeletions e :: w.procedures }
    simp only [delivered, List.map_cons, List.reverse_cons, List.append_assoc,
      List.singleton_append] at hrest ⊢
    exact hrest

/-- The two streams after what is under way was attended to. -/
def attended (answer : World.Chooser) (place n : Nat) (s : Streams) : Streams :=
  { s with world := s.world.attend answer place n }

theorem attended_run (hright : answer.Right) (hcareful : Careful key answer) (place n : Nat)
    (s : Streams) : ∃ disturbed, Relation.ReflTransGen (Step key) s
      { s.attended answer place n with disturbed := disturbed } :=
  beside_run (World.attend_run hright (fun w c reply w' h => (hcareful w c reply w' h).1) place n _)

/-- Whether everything was delivered and has come to an end well. -/
def quiet? (s : Streams) : Bool :=
  s.pending.isEmpty && (match s.controller with
    | .done (.ok ()) => true
    | _ => false) && !s.owed && s.world.idle

theorem quiet_of_quiet? (h : s.quiet? = true) : s.Quiet := by
  simp only [quiet?, Bool.and_eq_true, List.isEmpty_iff, Bool.not_eq_true'] at h
  obtain ⟨⟨⟨hpending, hcontroller⟩, howed⟩, hidle⟩ := h
  refine ⟨hpending, ?_, howed, World.done_of_idle hidle⟩
  split at hcontroller
  · assumption
  · exact absurd hcontroller Bool.false_ne_true

theorem Quiet.marked (h : s.Quiet) (disturbed : Bool) : Quiet { s with disturbed := disturbed } :=
  ⟨h.pending, h.controller, h.owed, h.procedures⟩

/-- The two streams before anything has happened. -/
def outset : Streams where
  world := .new Zone.utc 0
  controller := .done (.ok ())
  pending := []
  owed := false
  disturbed := false

theorem fresh_outset (key : OwnerKey) : outset.Fresh key where
  reachable := .new Zone.utc 0
  missing := rfl
  empty := fun _ ⟨_, hjob, _⟩ => absurd hjob (Option.some_ne_none _).symm
  procedures := rfl
  controller := rfl

/-! ### What the streams keep -/

/-- Whether the jobs that are queued for a missing resource will be taken out: by news of its
deletion that is to come, or by what is under way. -/
def Outstanding (key : OwnerKey) (s : Streams) : Prop :=
  (∃ e ∈ s.pending, e.Clearing key) ∨
    (∃ p ∈ s.world.procedures, p.Clears key (s.world.Holds key)) ∨ ∀ id, ¬s.world.Holds key id

/-- What holds all along: nothing but the controller puts jobs of the resource in, and where these
are not accounted for while the resource is missing, they will be taken out. -/
structure Kept (key : OwnerKey) (s : Streams) : Prop where
  good : s.world.Good
  controller : s.controller.Sound s.world.issued
  spares : ∀ p ∈ s.world.procedures, p.Spares key s.world.issued
  missing : ∃ due : Prop, s.controller.Accounts key (fun due _ => ¬due) due ∧
    (s.world.resources key = none → due ∨ s.Outstanding key)
  present : s.owed = false → s.disturbed = false → ∀ r, s.world.resources key = some r →
    ∃ before former deeds, before.Good ∧ before.resources key = some former ∧
      former.spec = r.spec ∧
        World.Trace (World.Aside key) before (reconcile key) deeds s.world s.controller

theorem Fresh.kept (h : s.Fresh key) : s.Kept key where
  good := World.good_of_reachable h.reachable
  controller := by
    rw [h.controller]
    trivial
  spares := by
    rw [h.procedures]
    exact fun _ hp => absurd hp List.not_mem_nil
  missing := by
    refine ⟨False, ?_, fun _ => .inr (.inr (.inr h.empty))⟩
    rw [h.controller]
    exact id
  present := fun _ _ r hr => absurd (h.missing.symm.trans hr) (Option.some_ne_none r).symm

/-- What is done about news of a deletion takes all jobs of a missing resource out. -/
theorem Outstanding.deliver {e : WatchEvent} {es : List WatchEvent} (h : s.Outstanding key)
    (hpending : s.pending = e :: es) : Outstanding key { s with
      world := { s.world with procedures := watchDeletions e :: s.world.procedures }
      pending := es } := by
  rcases h with ⟨e', he', hclearing⟩ | ⟨p, hp, hclears⟩ | hnone
  · rw [hpending] at he'
    rcases List.mem_cons.1 he' with rfl | he'
    · exact .inr (.inl ⟨_, List.mem_cons_self, clears_watchDeletions hclearing _⟩)
    · exact .inl ⟨e', he', hclearing⟩
  · exact .inr (.inl ⟨p, List.mem_cons_of_mem _ hp, hclears⟩)
  · exact .inr (.inr hnone)

/-- What a call of the controller that puts no job in leaves is outstanding still. -/
theorem Outstanding.call {w' : World} {c : DeskCall} {reply : c.Reply}
    {controller : Procedure Desk (Except Fault Unit)} (h : s.Outstanding key)
    (hw : s.world.manager.Lockstep) (hadds : ¬c.Adds key reply)
    (hanswer : s.world.Answers c reply w') :
    Outstanding key { s with world := w', controller := controller } := by
  have hholds : ∀ id, w'.Holds key id → s.world.Holds key id :=
    fun id hid => (World.holds_of_answers hw hadds hanswer hid).left
  rcases h with hpending | ⟨p, hp, hclears⟩ | hnone
  · exact .inl hpending
  · exact .inr (.inl ⟨p, World.mem_procedures_of_answers hanswer hp, hclears.mono hholds⟩)
  · exact .inr (.inr fun id hid => hnone id (hholds id hid))

theorem Outstanding.beside {w' : World} {disturbed : Bool} (h : s.Outstanding key)
    (hw : s.world.Good) (hspares : ∀ p ∈ s.world.procedures, p.Spares key s.world.issued)
    (hmissing : s.world.resources key = none)
    (hbeside : World.Amidst (Happening.Beside key) s.world w') :
    Outstanding key { s with world := w', disturbed := disturbed } := by
  rcases h with hpending | hclears | hnone
  · exact .inl hpending
  · exact .inr (.inl (World.clears_of_beside hw hspares hmissing hbeside hclears))
  · have helsewhere := hbeside.mono fun _ => Happening.Beside.elsewhere
    exact .inr (.inr fun id hid => hnone id (World.holds_of_elsewhere hw hspares helsewhere hid))

/-- A call of the controller keeps everything. -/
theorem Kept.call {w' : World} {c : DeskCall} {next : c.Reply → Procedure Desk (Except Fault Unit)}
    {reply : c.Reply} (h : s.Kept key) (hask : s.controller = .ask c next)
    (hanswer : s.world.Answers c reply w')
    (hthere : c.Writes key → s.world.resources key ≠ none) :
    Kept key { s with world := w', controller := next reply } := by
  have hsound : (Procedure.ask c next).Sound s.world.issued := hask ▸ h.controller
  obtain ⟨hgood, hle, hfits⟩ := h.good.answers hsound.1 hanswer
  have hmissing : w'.resources key = none ↔ s.world.resources key = none :=
    (World.stored_of_answers hanswer).1
  refine ⟨hgood, hsound.2 _ reply hle hfits, ?_, ?_, fun howed hdisturbed r' hr' => ?_⟩
  · have hleft : ∀ p ∈ s.world.procedures, p.Spares key w'.issued :=
      fun p hp => (h.spares p hp).mono hle
    exact World.forall_procedures_of_answers hanswer (spares_sweep _).task hleft
  · obtain ⟨due, haccounts, hdue⟩ := h.missing
    rw [hask] at haccounts
    refine ⟨_, haccounts reply, fun hnone => ?_⟩
    have hwrites : ¬c.Writes key := fun hwrites => hthere hwrites (hmissing.1 hnone)
    by_cases hadds : c.Adds key reply
    · exact .inl ⟨.inr hadds, hwrites⟩
    · rcases hdue (hmissing.1 hnone) with hdue | houtstanding
      · exact .inl ⟨.inl hdue, hwrites⟩
      · exact .inr (houtstanding.call h.good.lockstep hadds hanswer)
  · obtain ⟨r, hr, hspec⟩ := (World.stored_of_answers hanswer).2 r' hr'
    obtain ⟨before, former, deeds, hgood', hformer, hsame, htrace⟩ :=
      h.present howed hdisturbed r hr
    exact ⟨before, former, _, hgood', hformer, hsame.trans hspec, (hask ▸ htrace).next hanswer⟩

/-- What happens beside the two streams keeps everything but the present state of the resource. -/
theorem Kept.beside {w' : World} {disturbed : Bool} (h : s.Kept key)
    (hbeside : World.Amidst (Happening.Beside key) s.world w')
    (hpresent : s.owed = false → disturbed = false → ∀ r, w'.resources key = some r →
      ∃ before former deeds, before.Good ∧ before.resources key = some former ∧
        former.spec = r.spec ∧
          World.Trace (World.Aside key) before (reconcile key) deeds w' s.controller) :
    Kept key { s with world := w', disturbed := disturbed } := by
  obtain ⟨hgood, hle⟩ := h.good.step hbeside.step
  have helsewhere := hbeside.mono fun _ => Happening.Beside.elsewhere
  refine ⟨hgood, h.controller.mono hle, World.spares_of_elsewhere h.good h.spares helsewhere, ?_,
    hpresent⟩
  obtain ⟨due, haccounts, hdue⟩ := h.missing
  refine ⟨due, haccounts, fun hnone => ?_⟩
  have hbefore := (World.missing_iff_of_elsewhere helsewhere).1 hnone
  exact (hdue hbefore).imp_right fun houtstanding =>
    houtstanding.beside h.good h.spares hbefore hbeside

/-- Every step of the two streams keeps everything. -/
theorem Kept.step (h : s.Kept key) (hstep : Step key s s') : s'.Kept key := by
  cases hstep with
  | put r version hkey hfresh =>
    subst hkey
    obtain ⟨hgood, _⟩ := h.good.step (.put r version hfresh)
    obtain ⟨due, haccounts, _⟩ := h.missing
    refine ⟨hgood, h.controller, h.spares, ⟨due, haccounts, fun hnone => ?_⟩, fun howed => ?_⟩
    · exact absurd ((if_pos rfl).symm.trans hnone) (Option.some_ne_none _)
    · exact absurd howed.symm Bool.false_ne_true
  | delete =>
    obtain ⟨hgood, _⟩ := h.good.step (.delete key)
    obtain ⟨due, haccounts, _⟩ := h.missing
    refine ⟨hgood, h.controller, h.spares, ⟨due, haccounts, fun _ => .inr (.inl ?_)⟩,
      fun _ _ r hr => ?_⟩
    · exact ⟨.deleted key, List.mem_append_right _ List.mem_cons_self, rfl⟩
    · exact absurd ((if_pos rfl).symm.trans hr) (Option.some_ne_none r).symm
  | relist keys =>
    obtain ⟨due, haccounts, _⟩ := h.missing
    have hnews : ∃ e ∈ [WatchEvent.restarted keys], e.Clearing key :=
      ⟨_, List.mem_cons_self, trivial⟩
    exact ⟨h.good, h.controller, h.spares, ⟨due, haccounts, fun _ => .inr (.inl hnews)⟩, h.present⟩
  | begin result hdone =>
    obtain ⟨due, haccounts, hdue⟩ := h.missing
    rw [hdone] at haccounts
    refine ⟨h.good, sound_reconcile key _, h.spares,
      ⟨False, accounts_reconcile key, fun hnone => ?_⟩, fun _ _ r hr => ?_⟩
    · exact (hdue hnone).imp_left haccounts
    · exact ⟨s.world, r, [], h.good, hr, rfl, .here _ _⟩
  | call next reply hask hanswer htold hthere => exact h.call hask hanswer hthere
  | @deliver e es hpending =>
    have hbegins : World.Step s.world
        { s.world with procedures := watchDeletions e :: s.world.procedures } :=
      .begin _ (.inr (.inr ⟨e, rfl⟩))
    obtain ⟨hgood, _⟩ := h.good.step hbegins
    obtain ⟨due, haccounts, hdue⟩ := h.missing
    refine ⟨hgood, h.controller, List.forall_mem_cons.2 ⟨spares_watchDeletions e _, h.spares⟩,
      ⟨due, haccounts, fun hnone => ?_⟩, fun howed hdisturbed r hr => ?_⟩
    · exact (hdue hnone).imp_right fun houtstanding => houtstanding.deliver hpending
    · obtain ⟨before, former, deeds, hgood', hformer, hsame, htrace⟩ :=
        h.present howed hdisturbed r hr
      exact ⟨before, former, deeds, hgood', hformer, hsame,
        htrace.later ⟨hbegins, rfl, fun _ _ _ => Iff.rfl⟩⟩
  | aside hgentle =>
    have haside := World.aside_of_gentle h.good h.spares hgentle
    have hbeside := hgentle.mono fun _ => Happening.Gentle.beside
    refine h.beside hbeside fun howed hdisturbed r hr => ?_
    obtain ⟨before, former, deeds, hgood', hformer, hsame, htrace⟩ :=
      h.present howed hdisturbed r (haside.resource ▸ hr)
    exact ⟨before, former, deeds, hgood', hformer, hsame, htrace.later haside⟩
  | disturb hbeside => exact h.beside hbeside fun _ hdisturbed => absurd hdisturbed (by decide)

theorem Kept.run (h : s.Kept key) (hrun : Relation.ReflTransGen (Step key) s s') :
    s'.Kept key := by
  induction hrun with
  | refl => exact h
  | tail _ hstep ih => exact ih.step hstep

/-- When everything was delivered, no job is queued for a missing resource. -/
theorem Kept.empty (h : s.Kept key) (hquiet : s.Quiet) (hmissing : s.world.resources key = none) :
    ∀ id, ¬s.world.Holds key id := by
  obtain ⟨due, haccounts, hdue⟩ := h.missing
  rw [hquiet.controller] at haccounts
  rcases hdue hmissing with hdue | ⟨e, he, _⟩ | ⟨p, hp, hclears⟩ | hnone
  · exact absurd hdue haccounts
  · rw [hquiet.pending] at he
    exact absurd he List.not_mem_nil
  · rw [hquiet.procedures p hp] at hclears
    exact hclears
  · exact hnone

/-- What holds once everything was delivered: neither queue nor agenda has a job of a missing
resource, and for one that is there they are as its last reconcile left them, unless something else
has disturbed it. -/
structure Settled (key : OwnerKey) (s : Streams) : Prop where
  queue : s.world.resources key = none → ∀ id job, s.world.manager.queue.get? id = some job →
    job.owner ≠ key
  agenda : s.world.resources key = none → ∀ id entry,
    s.world.manager.engine.agenda.entries.get? id = some entry → entry.job.owner ≠ key
  reconciled : s.disturbed = false → ∀ r, s.world.resources key = some r →
    ∃ before former own, before.resources key = some former ∧ former.spec = r.spec ∧
      World.Exec (World.Aside key) before (reconcile key) own (.ok ()) s.world ∧
        ((r.spec.jobs.map JobSpec.name).Nodup → ∃ status, r.status = some status ∧
          status.Describes former ∧
            s.world.manager.Carries former (former.status.getD .initial) status)

/-- However the two streams have gone on side by side without a call for the resource failing, when
both have come to an end, queue and agenda are settled. -/
theorem streams_settle (hfresh : s.Fresh key) (hrun : Relation.ReflTransGen (Step key) s s')
    (hquiet : s'.Quiet) : s'.Settled key := by
  have hkept := hfresh.kept.run hrun
  have hqueue : s'.world.resources key = none → ∀ id job,
      s'.world.manager.queue.get? id = some job → job.owner ≠ key :=
    fun hmissing id job hjob howner => hkept.empty hquiet hmissing id ⟨job, hjob, howner⟩
  refine ⟨hqueue, fun hmissing id entry hentry => ?_, fun hdisturbed r hr => ?_⟩
  · exact hqueue hmissing id entry.job (hkept.good.lockstep.entries id entry hentry).1
  · obtain ⟨before, former, deeds, hgood, hformer, hspec, htrace⟩ :=
      hkept.present hquiet.owed hdisturbed r hr
    rw [hquiet.controller] at htrace
    obtain ⟨own, hexec⟩ := htrace.exec
    refine ⟨before, former, own, hformer, hspec, hexec, fun hnames => ?_⟩
    rw [← hspec] at hnames
    obtain ⟨⟨r', status, hr', _, hstatus, hdescribes, hcarries⟩, _⟩ :=
      hexec.settled hgood hformer hnames
    obtain rfl := Option.some.inj (hr.symm.trans hr')
    exact ⟨status, hstatus, hdescribes, hcarries⟩

open World (shop daily)

/-- The two streams after a resource was written and reconciled. -/
def opened : Streams :=
  (outset.written (shop daily) "0").reconciled (World.oblige? ⟨0, 0⟩) (shop daily).key

theorem opened_run : Relation.ReflTransGen (Step (shop daily).key) outset opened :=
  (written_run _ _ _).trans (reconciled_run (World.right_oblige? _) (careful_oblige? _ _) _)

/-- The two streams after the resource was deleted then, and the news of it all delivered. -/
def closed : Streams :=
  ((opened.removed (shop daily).key).delivered).attended (World.oblige? ⟨60, 0⟩) 0 10

/-- Queue and agenda are settled with the job of the resource that is there, and are so again when
it was deleted. -/
theorem daily_settles :
    (opened.delivered.disturbed = false ∧ opened.delivered.world.Holds (shop daily).key "up" ∧
      (∃ r, opened.delivered.world.resources (shop daily).key = some r) ∧
        opened.delivered.Settled (shop daily).key) ∧
    closed.world.resources (shop daily).key = none ∧
      ∃ disturbed, Settled (shop daily).key { closed with disturbed := disturbed } := by
  have hopened : opened.delivered.quiet? = true := by decide +kernel
  have hundisturbed : opened.delivered.disturbed = false := by decide +kernel
  have hqueued : (opened.delivered.world.manager.queue.get? "up").any
      (fun job => decide (job.owner = (shop daily).key)) = true := by decide +kernel
  have hthere : (opened.delivered.world.resources (shop daily).key).isSome = true := by
    decide +kernel
  have hclosed : closed.quiet? = true := by decide +kernel
  have hmissing : (closed.world.resources (shop daily).key).isNone = true := by decide +kernel
  obtain ⟨job, hjob, howner⟩ := (Option.any_eq_true _ _).1 hqueued
  obtain ⟨disturbed, hattended⟩ := attended_run (World.right_oblige? ⟨60, 0⟩)
    (careful_oblige? (shop daily).key _) 0 10 (opened.removed (shop daily).key).delivered
  have hclosing := ((opened_run.trans (removed_run _ _)).trans (delivered_run _ _)).trans hattended
  refine ⟨⟨hundisturbed, ⟨job, hjob, of_decide_eq_true howner⟩, Option.isSome_iff_exists.1 hthere,
    ?_⟩, Option.isNone_iff_eq_none.1 hmissing, disturbed, ?_⟩
  · exact streams_settle (fresh_outset _) (opened_run.trans (delivered_run _ _))
      (quiet_of_quiet? hopened)
  · exact streams_settle (fresh_outset _) hclosing ((quiet_of_quiet? hclosed).marked disturbed)

/-- The two streams after the resource was deleted, written and reconciled once more. -/
def reopened : Streams :=
  ((opened.removed (shop daily).key).written (shop daily) "again").reconciled
    (World.obligeAs? "up-2" ⟨60, 0⟩) (shop daily).key

theorem reopened_run : Relation.ReflTransGen (Step (shop daily).key) outset reopened :=
  ((opened_run.trans (removed_run _ _)).trans (written_run _ _ _)).trans
    (reconciled_run (World.right_obligeAs? _ _) (careful_obligeAs? _ _ _) _)

/-- The two streams after all news was delivered, that of the deletion too. -/
def forgotten : Streams :=
  reopened.delivered.attended (World.oblige? ⟨120, 0⟩) 1 10

/-- The news that the earlier resource was deleted comes after the later one was reconciled, and
takes the job out that was brought in for it. -/
theorem recreated_forgotten :
    Relation.ReflTransGen (Step (shop daily).key) outset reopened ∧
      reopened.owed = false ∧ reopened.world.Holds (shop daily).key "up-2" ∧
    (∃ disturbed, Relation.ReflTransGen (Step (shop daily).key) reopened
      { forgotten with disturbed := disturbed }) ∧ forgotten.Quiet ∧
      (∃ r, forgotten.world.resources (shop daily).key = some r ∧ r.spec = (shop daily).spec) ∧
        ∀ id, ¬forgotten.world.Holds (shop daily).key id := by
  have hqueued : (reopened.world.manager.queue.get? "up-2").any
      (fun job => decide (job.owner = (shop daily).key)) = true := by decide +kernel
  have howed : reopened.owed = false := by decide +kernel
  have hquiet : forgotten.quiet? = true := by decide +kernel
  have hthere : (forgotten.world.resources (shop daily).key).any
      (fun r => decide (r.spec = (shop daily).spec)) = true := by decide +kernel
  have hnone : forgotten.world.manager.queue.values.isEmpty = true := by decide +kernel
  obtain ⟨job, hjob, howner⟩ := (Option.any_eq_true _ _).1 hqueued
  obtain ⟨r, hr, hspec⟩ := (Option.any_eq_true _ _).1 hthere
  obtain ⟨disturbed, hattended⟩ := attended_run (World.right_oblige? ⟨120, 0⟩)
    (careful_oblige? (shop daily).key _) 1 10 reopened.delivered
  refine ⟨reopened_run, howed, ⟨job, hjob, of_decide_eq_true howner⟩,
    ⟨disturbed, (delivered_run _ _).trans hattended⟩, quiet_of_quiet? hquiet,
    ⟨r, hr, of_decide_eq_true hspec⟩, fun id ⟨job, hjob, _⟩ => ?_⟩
  have hmem := Table.mem_values.2 ⟨id, hjob⟩
  rw [List.isEmpty_iff.1 hnone] at hmem
  exact List.not_mem_nil hmem

end Streams

end CronScale
