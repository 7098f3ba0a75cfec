import CronScale.Proofs.Manager.Handling
import CronScale.Proofs.Manager.Missing
/-!
# One queued job for each name

While a reconcile is under way, two jobs of one name may be queued: the one that an earlier
reconcile has left, and the one that is put in now. But a reconcile that has put a job in does not
end before it has let go of all jobs but those that its conditions name, and conditions have names
of their own. So while no reconcile of a resource is under way, at most one job of each name is
queued for it (`World.queued_once`), also if reconciles have overlapped.
-/

namespace CronScale

open CronScale.Calendar

namespace DeskCall

/-- Whether a call lets go of all jobs of a resource but given ones. -/
def Retains (key : OwnerKey) : DeskCall → Prop
  | .manager (.retainOwned owner _) => owner = key
  | _ => False

/-- Whether a call puts in no jobs but those of a resource. -/
def PutsOnly (owner : OwnerKey) : DeskCall → Prop
  | .manager (.createOrUpdate job) => job.owner = owner
  | _ => True

/-- Whether a copy of a resource that is fetched is filed under its own key. -/
def Files : (c : DeskCall) → c.Reply → Prop
  | .store (.fetch key), reply => ∀ r, reply = .ok (some r) → r.key = key
  | _, _ => True

variable {key owner : OwnerKey} {c : DeskCall}

theorem PutsOnly.not_adds (h : c.PutsOnly owner) (hne : owner ≠ key) (reply : c.Reply) :
    ¬c.Adds key reply := by
  cases c with
  | manager mc =>
    cases mc with
    | createOrUpdate job => exact fun hadds => hne (h.symm.trans hadds.1)
    | _ => exact fun hadds => hadds
  | _ => exact fun hadds => hadds

end DeskCall

namespace Procedure

variable {α β : Type} {key : OwnerKey} {p : Procedure Desk α} {due due' : Prop}

/-- Whether a procedure that has put in a job of a resource retains given ones of its jobs before it
ends, if it is noted whether it may have put one in since it last did so. -/
def Mends (key : OwnerKey) : Procedure Desk α → Prop → Prop
  | .done _, due => ¬due
  | .ask c next, due => ∀ reply, c.Files reply →
    Mends key (next reply) ((due ∨ c.Adds key reply) ∧ ¬c.Retains key)

theorem Mends.anti (h : p.Mends key due) (hdue : due' → due) : p.Mends key due' := by
  induction p generalizing due due' with
  | done a => exact fun h' => h (hdue h')
  | ask c next ih =>
    exact fun reply hfiles => ih reply (h reply hfiles) fun h' => ⟨h'.1.imp_left hdue, h'.2⟩

/-- What puts nothing in has nothing to mend. -/
theorem Asks.mends {post : α → Prop} (h : p.Asks (fun c => ∀ reply, ¬c.Adds key reply) post) :
    p.Mends key False := by
  induction p with
  | done a => exact id
  | ask c next ih =>
    intro reply _
    exact (ih reply (h.2 reply)).anti fun h' => h'.1.elim id fun hadds => h.1 reply hadds

/-- Whatever is done first, it is mended if what is done last mends it. -/
theorem mends_seq {f : α → Procedure Desk β} (p : Procedure Desk α)
    (hf : ∀ a due', (f a).Mends key due') : (p >>= f).Mends key due := by
  induction p generalizing due with
  | done a => exact hf a due
  | ask c next ih => exact fun reply _ => ih reply

theorem Mends.task (h : p.Mends key due) : (World.task p).Mends key due := by
  induction p generalizing due with
  | done a => exact h
  | ask c next ih => exact fun reply hfiles => ih reply (h reply hfiles)

/-- A procedure that has something to mend may retain given jobs. -/
theorem Mends.mayAsk (h : p.Mends key True) :
    ∃ keep, p.MayAsk (.manager (.retainOwned key keep)) := by
  have hanswer : ∀ c : DeskCall, ∃ reply : c.Reply, c.Files reply := by
    intro c
    cases c with
    | store c =>
      cases c with
      | fetch key => exact ⟨.ok none, fun _ hr => nomatch hr⟩
      | patchStatus key s version => exact ⟨.ok (), trivial⟩
      | publish r e => exact ⟨(), trivial⟩
    | manager c => exact ⟨((Manager.empty .utc 0).answer ⟨0, 0⟩ c).1, trivial⟩
    | freshId owner name => exact ⟨"", trivial⟩
    | publishCounts counts => exact ⟨(), trivial⟩
    | startSweep => exact ⟨(), trivial⟩
    | startReruns jobs => exact ⟨(), trivial⟩
  induction p with
  | done a => exact absurd trivial h
  | ask c next ih =>
    by_cases hretains : c.Retains key
    · cases c with
      | manager mc =>
        cases mc with
        | retainOwned owner keep =>
          obtain rfl : owner = key := hretains
          exact ⟨keep, .inl rfl⟩
        | _ => exact hretains.elim
      | _ => exact hretains.elim
    · obtain ⟨reply, hfiles⟩ := hanswer c
      obtain ⟨keep, hkeep⟩ := ih reply ((h reply hfiles).anti fun _ => ⟨.inl trivial, hretains⟩)
      exact ⟨keep, .inr ⟨reply, hkeep⟩⟩

end Procedure

namespace Reconcile

theorem asks_putsOnly (key : OwnerKey) (r : Resource) :
    (settleResource key r).Asks (DeskCall.PutsOnly r.key) fun _ => True := by
  refine (asks_complain trivial fun _ => trivial).seq fun _ _ => ?_
  refine (asks_divide (fun _ _ => trivial) trivial r.spec).seq fun p _ => ?_
  refine (asks_settleJobs_each trivial (fun _ => trivial) (fun _ => trivial) (fun _ _ => trivial)
    (fun _ howner => howner) _ _).seq fun d _ => ?_
  refine (Procedure.asks_ask trivial).seq fun _ _ => ?_
  split
  · refine (Procedure.asks_ask trivial).seq fun reply _ => ?_
    cases reply with
    | ok u => trivial
    | error e => trivial
  · trivial

theorem mends_settleResource (key : OwnerKey) (r : Resource) (due : Prop) :
    (settleResource key r).Mends key due := by
  refine Procedure.mends_seq _ fun _ due₁ => Procedure.mends_seq _ fun p due₂ => ?_
  refine Procedure.mends_seq _ fun d due₃ => fun reply _ => ?_
  have hrest : Procedure.Asks (fun c => ∀ reply, ¬c.Adds key reply) (fun _ => True)
      (if d.changed then writeStatus key r (adopt r.spec (r.status.getD .initial) d.conditions)
        else pure (.ok ())) := by
    split
    · refine (Procedure.asks_ask fun _ hadds => hadds).seq fun reply _ => ?_
      cases reply with
      | ok u => trivial
      | error e => trivial
    · trivial
  exact hrest.mends.anti fun h => h.2 rfl

end Reconcile

/-- A reconcile that has put jobs in retains those that its conditions name before it ends. -/
theorem mends_reconcile (key : OwnerKey) : (reconcile key).Mends key False := by
  intro reply _
  match reply with
  | .error e => exact fun h => h.1.elim id id
  | .ok none => exact fun _ _ _ _ h => h.1.elim (fun h => h.1.elim (fun h => h.1.elim id id) id) id
  | .ok (some r) => exact Reconcile.mends_settleResource key r _

theorem mends_reconcile_of_ne {key owner : OwnerKey} (hne : owner ≠ key) :
    (reconcile owner).Mends key False := by
  intro reply hfiles
  match reply with
  | .error e => exact fun h => h.1.elim id id
  | .ok none => exact fun _ _ _ _ h => h.1.elim (fun h => h.1.elim (fun h => h.1.elim id id) id) id
  | .ok (some r) =>
    obtain rfl : r.key = owner := hfiles r rfl
    have hasks := (Reconcile.asks_putsOnly r.key r).weaken
      (fun _ hc => hc.not_adds hne) fun _ _ => trivial
    exact hasks.mends.anti fun h => h.1.elim id id

theorem mends_of_begun {key : OwnerKey} {p : Procedure Desk Unit} (h : World.Begun p) :
    p.Mends key False := by
  rcases h with ⟨owner, rfl⟩ | rfl | ⟨e, rfl⟩
  · by_cases howner : owner = key
    · subst howner
      exact (mends_reconcile owner).task
    · exact (mends_reconcile_of_ne howner).task
  · exact (asks_sweep.weaken (fun _ hc => hc.not_adds) fun _ _ => trivial).mends.task
  · exact ((asks_watchDeletions e).weaken (fun _ hc => hc.not_adds) fun _ _ => trivial).mends

theorem mends_record {key : OwnerKey} (settings : ManagerSettings) (job : Job)
    (outcome : Except Fault String) : (record settings job outcome).Mends key False :=
  (asks_record (fun _ hadds => hadds) (fun _ _ hadds => hadds) settings job outcome).mends

namespace World

variable {w w' : World} {key : OwnerKey} {c : DeskCall} {reply : c.Reply}

/-- Whether at most one job of each name is queued for a resource. -/
def Tidy (w : World) (key : OwnerKey) : Prop :=
  ∀ id id', w.Holds key id → w.Holds key id' → w.issued id' = w.issued id → id' = id

theorem Holds.issued {id : String} (h : w.Holds key id) (hw : w.Good) :
    ∃ name, w.issued id = some (key, name) := by
  obtain ⟨job, hjob, rfl⟩ := h
  have hissued := (hw.queued id job hjob).issued
  rw [hw.lockstep.keyed id job hjob] at hissued
  exact ⟨job.name, hissued⟩

theorem Tidy.of_holds (h : w.Tidy key) (hw : w.Good) (hle : w.issued.Le w'.issued)
    (hholds : ∀ id, w'.Holds key id → w.Holds key id) : w'.Tidy key := by
  intro id id' hid hid' heq
  have hid := hholds id hid
  have hid' := hholds id' hid'
  obtain ⟨name, hname⟩ := hid.issued hw
  obtain ⟨name', hname'⟩ := hid'.issued hw
  refine h id id' hid hid' ?_
  rw [hle _ _ hname, hle _ _ hname'] at heq
  rw [hname, hname', heq]

/-- After given jobs were retained, no others are queued. -/
theorem tidy_of_retains (hw : w.Good) (hc : c.Sound w.issued) (hretains : c.Retains key)
    (hanswer : w.Answers c reply w') : w'.Tidy key := by
  cases c with
  | manager mc =>
    cases mc with
    | retainOwned owner keep =>
      obtain rfl : owner = key := hretains
      obtain ⟨now, _, rfl⟩ := hanswer
      have hkept : ∀ id, Holds { w with
          manager := (w.manager.answer now (.retainOwned owner keep)).2 } owner id → id ∈ keep := by
        rintro id ⟨job, hjob, howner⟩
        have hleft : (w.manager.dropAll
            (w.manager.idsOf owner fun id => !keep.contains id)).queue.get? id = some job := hjob
        rw [Manager.get?_dropAll] at hleft
        split at hleft
        · exact absurd hleft (Option.some_ne_none job).symm
        · rename_i hnot
          refine Decidable.byContradiction fun hkeep => hnot ?_
          exact (Manager.mem_idsOf hw.lockstep.keyed).2 ⟨job, hleft, howner, by simpa using hkeep⟩
      exact fun id id' hid hid' heq => (hc id (hkept id hid)).2 id' (hkept id' hid') heq
    | _ => exact hretains.elim
  | _ => exact hretains.elim

/-- Whether whatever is under way mends what it does to the jobs of a resource, and something has
yet to do so unless at most one job of each name is queued. -/
structure Tended (w : World) (key : OwnerKey) : Prop where
  procedures : ∀ p ∈ w.procedures, p.Mends key False
  tidy : w.Tidy key ∨ ∃ p ∈ w.procedures, p.Mends key True

theorem files_of_answers (hw : w.Good) (hanswer : w.Answers c reply w') : c.Files reply := by
  cases c with
  | store c =>
    cases c with
    | fetch key =>
      rintro r rfl
      rcases hanswer.2 with hreply | ⟨e, hreply⟩
      · exact (hw.resources key r (Except.ok.inj hreply).symm).filed
      · exact absurd hreply (by simp)
    | _ => trivial
  | _ => trivial

/-- What is left of the caller mends what its call has done. -/
theorem Tended.call {ps qs : List (Procedure Desk Unit)} {next : c.Reply → Procedure Desk Unit}
    (h : w.Tended key) (hw : w.Good) (hask : w.procedures = ps ++ .ask c next :: qs)
    (hanswer : Answers { w with procedures := ps ++ qs } c reply w') :
    Tended { w' with procedures := next reply :: w'.procedures } key := by
  obtain ⟨⟨hc, _⟩, hothers⟩ := hw.caller hask
  obtain ⟨_, hle, _⟩ := hothers.answers hc hanswer
  have hfiles := files_of_answers hothers hanswer
  have hcaller : Procedure.ask c next ∈ w.procedures :=
    hask ▸ List.mem_append_right ps List.mem_cons_self
  have hsame : ∀ p ∈ ps ++ qs, p ∈ w.procedures := by
    intro p hp
    rw [hask]
    exact (List.mem_append.1 hp).elim (List.mem_append_left _)
      fun hp => List.mem_append_right _ (List.mem_cons_of_mem _ hp)
  refine ⟨List.forall_mem_cons.2 ⟨?_, ?_⟩, ?_⟩
  · exact (h.procedures _ hcaller reply hfiles).anti fun h' => h'.elim
  · exact forall_procedures_of_answers hanswer (mends_of_begun (.inr (.inl rfl)))
      fun p hp => h.procedures p (hsame p hp)
  by_cases hretains : c.Retains key
  · have htidy : w'.Tidy key := tidy_of_retains hothers hc hretains hanswer
    exact .inl htidy
  by_cases hadds : c.Adds key reply
  · have hnext := h.procedures _ hcaller reply hfiles
    exact .inr ⟨next reply, List.mem_cons_self, hnext.anti fun _ => ⟨.inr hadds, hretains⟩⟩
  rcases h.tidy with htidy | ⟨p, hp, hmends⟩
  · have hholds : ∀ id, w'.Holds key id → Holds { w with procedures := ps ++ qs } key id :=
      fun id hid => (holds_of_answers hothers.lockstep hadds hanswer hid).left
    have hothers' : Tidy { w with procedures := ps ++ qs } key := htidy
    exact .inl (hothers'.of_holds hothers hle hholds)
  · rw [hask] at hp
    have hleft : ∀ p ∈ ps ++ qs, p ∈ next reply :: w'.procedures :=
      fun p hp => List.mem_cons_of_mem _ (mem_procedures_of_answers hanswer hp)
    rcases List.mem_append.1 hp with hp | hp
    · exact .inr ⟨p, hleft p (List.mem_append_left _ hp), hmends⟩
    rcases List.mem_cons.1 hp with rfl | hp
    · exact .inr ⟨next reply, List.mem_cons_self, (hmends reply hfiles).anti fun _ =>
        ⟨.inl trivial, hretains⟩⟩
    · exact .inr ⟨p, hleft p (List.mem_append_right _ hp), hmends⟩

theorem Tended.step (h : w.Tended key) (hw : w.Good) (hstep : Step w w') : w'.Tended key := by
  have hmore : ∀ p ∈ w.procedures, ∀ q : Procedure Desk Unit, p ∈ q :: w.procedures :=
    fun p hp q => List.mem_cons_of_mem q hp
  cases hstep with
  | begin p hp =>
    refine ⟨List.forall_mem_cons.2 ⟨mends_of_begun hp, h.procedures⟩, h.tidy.imp_right ?_⟩
    exact fun ⟨q, hq, hmends⟩ => ⟨q, hmore q hq p, hmends⟩
  | call next reply hask hanswer => exact h.call hw hask hanswer
  | finish job settings outcome hjob =>
    refine ⟨List.forall_mem_cons.2 ⟨mends_record settings job outcome, h.procedures⟩,
      h.tidy.imp_right ?_⟩
    exact fun ⟨q, hq, hmends⟩ => ⟨q, hmore q hq _, hmends⟩
  | restart zone staleness =>
    refine ⟨fun _ hp => absurd hp List.not_mem_nil, .inl fun id _ hid => ?_⟩
    obtain ⟨job, hjob, _⟩ := hid
    exact absurd hjob (Option.some_ne_none job).symm
  | _ => exact ⟨h.procedures, h.tidy⟩

theorem tended_of_reachable (hw : Reachable w) (key : OwnerKey) : w.Tended key := by
  induction hw with
  | new zone staleness =>
    refine ⟨fun _ hp => absurd hp List.not_mem_nil, .inl fun id _ hid => ?_⟩
    obtain ⟨job, hjob, _⟩ := hid
    exact absurd hjob (Option.some_ne_none job).symm
  | step hreachable hstep ih => exact ih.step (good_of_reachable hreachable) hstep

/-- Whether nothing that is under way may retain jobs of a resource, as a reconcile of it does
before it ends. -/
def Unattended (w : World) (key : OwnerKey) : Prop :=
  ∀ p ∈ w.procedures, ∀ keep, ¬p.MayAsk (.manager (.retainOwned key keep))

/-- While no reconcile of a resource is under way, at most one job of each name is queued for it. -/
theorem queued_once (hw : Reachable w) (hidle : w.Unattended key) : w.Tidy key := by
  rcases (tended_of_reachable hw key).tidy with htidy | ⟨p, hp, hmends⟩
  · exact htidy
  · obtain ⟨keep, hkeep⟩ := hmends.mayAsk
    exact absurd hkeep (hidle p hp keep)

end World

end CronScale
