import CronScale.Proofs.Manager.Handling
import CronScale.Proofs.Manager.Repetition
import Mathlib.Data.Set.Finite.Basic
import Mathlib.Data.Fintype.EquivFin
/-!
# Procedures that nothing comes between

A procedure may be carried out at one reading of the clock, with nothing else happening between its
calls and no call to the home of the resources failing (`Procedure.AtOnce`). Which ids and which
versions are given out is left open. In a world that can come about only finitely many ids were
given out, so that a reconcile can always be carried out in this way (`World.exists_atOnce`), and
it succeeds (`yields_reconcile`).
-/

namespace CronScale

open CronScale.Calendar

/-- Whether a call to the home of the resources was answered without a fault. -/
def DeskCall.Served : (c : DeskCall) → c.Reply → Prop
  | .store (.fetch _), reply => ∃ r, reply = .ok r
  | .store (.patchStatus _ _ _), reply => reply = .ok ()
  | _, _ => True

namespace Procedure

variable {α β : Type} {p : Procedure Desk α} {post : α → Prop}

/-- Whether the result of a procedure has a property if no call to the home of the resources
fails. -/
def Yields (post : α → Prop) : Procedure Desk α → Prop
  | .done a => post a
  | .ask c next => ∀ reply, c.Served reply → Yields post (next reply)

theorem yields_true (p : Procedure Desk α) : p.Yields fun _ => True := by
  induction p with
  | done a => trivial
  | ask c next ih => exact fun reply _ => ih reply

theorem Yields.seq {f : α → Procedure Desk β} {post' : β → Prop} (h : p.Yields post)
    (hf : ∀ a, post a → (f a).Yields post') : (p >>= f).Yields post' := by
  induction p with
  | done a => exact hf a h
  | ask c next ih => exact fun reply hserved => ih reply (h reply hserved)

end Procedure

namespace Reconcile

variable {key : OwnerKey} {r : Resource}

/-- What a reconcile does until all declared jobs have had their turns. -/
def draft (key : OwnerKey) (r : Resource) : Procedure Desk Draft := do
  complain key r
  let status := r.status.getD .initial
  let (left, reusable) ← divide key r.spec status
  let changed := status.globalChange r.spec || left.length != status.conditions.length
  settleJobs key r left r.spec.jobs ⟨left, reusable, changed⟩

/-- What it does then. -/
def finish (key : OwnerKey) (r : Resource) (d : Draft) : Procedure Desk (Except Fault Unit) := do
  let _ ← Desk.retainOwned key (idsNamed d.conditions)
  if d.changed then writeStatus key r (adopt r.spec (r.status.getD .initial) d.conditions)
  else pure (.ok ())

theorem settleResource_eq (key : OwnerKey) (r : Resource) :
    settleResource key r = draft key r >>= finish key r := by
  simp only [settleResource, draft, Bind.bind, Procedure.bind_assoc]
  rfl

theorem harmless_draft (key : OwnerKey) (r : Resource) :
    (draft key r).Asks DeskCall.Harmless fun _ => True := by
  refine (asks_complain trivial fun _ => trivial).seq fun _ _ => ?_
  refine (asks_divide (fun _ _ => trivial) trivial r.spec).seq fun p _ => ?_
  exact asks_settleJobs_each trivial (fun _ => trivial) (fun _ => trivial) (fun _ _ => trivial)
    (fun _ _ => trivial) _ _

theorem yields_writeStatus (s : Status) : (writeStatus key r s).Yields (· = .ok ()) := by
  intro reply hserved
  obtain rfl : reply = .ok () := hserved
  rfl

theorem yields_settleResource (key : OwnerKey) (r : Resource) :
    (settleResource key r).Yields (· = .ok ()) := by
  rw [settleResource_eq]
  refine (Procedure.yields_true _).seq fun d _ => ?_
  refine (Procedure.yields_true _).seq fun _ _ => ?_
  split
  · exact yields_writeStatus _
  · rfl

end Reconcile

/-- While the home of the resources does not fail, every reconcile succeeds. -/
theorem yields_reconcile (key : OwnerKey) : (reconcile key).Yields (· = .ok ()) := by
  intro reply hserved
  obtain ⟨r, rfl⟩ := hserved
  cases r with
  | none => exact fun _ _ _ _ => rfl
  | some r => exact Reconcile.yields_settleResource key r

/-- How a call is answered at a reading of the clock if no call to the home of the resources
fails. -/
def World.AnswersAt (now : Instant) (w : World) : (c : DeskCall) → c.Reply → World → Prop
  | .manager c, reply, w' =>
    reply = (w.manager.answer now c).1 ∧ w' = { w with manager := (w.manager.answer now c).2 }
  | c, reply, w' => w.Answers c reply w' ∧ c.Served reply

/-- Whether a procedure that is carried out at a reading of the clock, with nothing else happening
and no call to the home of the resources failing, can lead from one world to another one, with a
result. -/
def Procedure.AtOnce {α : Type} (now : Instant) : Procedure Desk α → World → World → α → Prop
  | .done a, w, w', b => w' = w ∧ b = a
  | .ask c next, w, w', b =>
    ∃ reply w₁, w.AnswersAt now c reply w₁ ∧ AtOnce now (next reply) w₁ w' b

variable {now : Instant} {w w' : World}

theorem World.AnswersAt.answers {c : DeskCall} {reply : c.Reply}
    (h : w.AnswersAt now c reply w') : w.Answers c reply w' ∧ c.Served reply := by
  cases c with
  | manager c => exact ⟨⟨now, h⟩, trivial⟩
  | _ => exact h

namespace Procedure

variable {α β : Type} {p : Procedure Desk α} {a : α} {post : α → Prop}

theorem atOnce_seq {f : α → Procedure Desk β} {b : β} : (p >>= f).AtOnce now w w' b ↔
    ∃ a w₁, p.AtOnce now w w₁ a ∧ (f a).AtOnce now w₁ w' b := by
  induction p generalizing w with
  | done a =>
    refine ⟨fun h => ⟨a, w, ⟨rfl, rfl⟩, h⟩, ?_⟩
    rintro ⟨_, _, ⟨rfl, rfl⟩, h⟩
    exact h
  | ask c next ih =>
    constructor
    · rintro ⟨reply, w₁, hanswer, hrest⟩
      obtain ⟨a, w₂, hfirst, hrest⟩ := (ih reply).1 hrest
      exact ⟨a, w₂, ⟨reply, w₁, hanswer, hfirst⟩, hrest⟩
    · rintro ⟨a, w₂, ⟨reply, w₁, hanswer, hfirst⟩, hrest⟩
      exact ⟨reply, w₁, hanswer, (ih reply).2 ⟨a, w₂, hfirst, hrest⟩⟩

/-- A step of the manager's own is answered in one way only. -/
theorem atOnce_manager {c : ManagerCall} {f : c.Reply → Procedure Desk α} :
    (Desk.ask (.manager c) >>= f).AtOnce now w w' a ↔
      (f (w.manager.answer now c).1).AtOnce now
        { w with manager := (w.manager.answer now c).2 } w' a := by
  constructor
  · rintro ⟨reply, w₁, ⟨rfl, rfl⟩, h⟩
    exact h
  · exact fun h => ⟨_, _, ⟨rfl, rfl⟩, h⟩

theorem AtOnce.exec (h : p.AtOnce now w w' a) (between : World → World → Prop) :
    ∃ own, World.Exec between w p own a w' := by
  induction p generalizing w with
  | done b =>
    obtain ⟨rfl, rfl⟩ := h
    exact ⟨[], .done a⟩
  | ask c next ih =>
    obtain ⟨reply, w₁, hanswer, hrest⟩ := h
    obtain ⟨own, hexec⟩ := ih reply hrest
    exact ⟨_, .ask hanswer.answers.1 hexec⟩

theorem AtOnce.yields (h : p.AtOnce now w w' a) (hp : p.Yields post) : post a := by
  induction p generalizing w with
  | done b =>
    obtain ⟨rfl, rfl⟩ := h
    exact hp
  | ask c next ih =>
    obtain ⟨reply, w₁, hanswer, hrest⟩ := h
    exact ih reply hrest (hp reply hanswer.answers.2)

theorem AtOnce.result {test : DeskCall → Prop} (h : p.AtOnce now w w' a) (hp : p.Asks test post) :
    post a := by
  induction p generalizing w with
  | done b =>
    obtain ⟨rfl, rfl⟩ := h
    exact hp
  | ask c next ih =>
    obtain ⟨reply, w₁, _, hrest⟩ := h
    exact ih reply hrest (hp.2 reply)

/-- A procedure that writes no status leaves all resources as they are. -/
theorem AtOnce.resources (h : p.AtOnce now w w' a) (hp : p.Asks DeskCall.Harmless post) :
    w'.resources = w.resources := by
  induction p generalizing w with
  | done b => rw [h.1]
  | ask c next ih =>
    obtain ⟨reply, w₁, hanswer, hrest⟩ := h
    rw [ih reply hrest (hp.2 reply)]
    refine funext fun key => World.resources_of_answers hanswer.answers.1 ?_
    rintro s version rfl
    exact hp.1

/-- What a procedure keeps it has kept when it was carried out. -/
theorem AtOnce.keeps {allowed : Issued → DeskCall → Prop} {kept : Issued → α → Prop}
    (h : p.AtOnce now w w' a) (hw : w.Good) (hp : p.Keeps allowed kept w.issued)
    (hallowed : ∀ i c, allowed i c → c.Sound i) :
    kept w'.issued a ∧ w'.Good ∧ w.issued.Le w'.issued := by
  induction p generalizing w with
  | done b =>
    obtain ⟨rfl, rfl⟩ := h
    exact ⟨hp, hw, .refl _⟩
  | ask c next ih =>
    obtain ⟨reply, w₁, hanswer, hrest⟩ := h
    obtain ⟨hgood, hle, hfits⟩ := hw.answers (hallowed _ _ hp.1) hanswer.answers.1
    obtain ⟨hkept, hgood', hle'⟩ := ih reply hrest hgood (hp.2 _ reply hle hfits)
    exact ⟨hkept, hgood', hle.trans hle'⟩

end Procedure

namespace World

variable {key : OwnerKey} {r : Resource}

/-! ### Every reconcile can be carried out -/

/-- Whether only finitely many ids were given out. -/
def Supplied (w : World) : Prop := {id | w.issued id ≠ none}.Finite

theorem Supplied.exists_fresh (h : w.Supplied) : ∃ id, id ≠ "" ∧ w.issued id = none := by
  obtain ⟨id, hid⟩ := (h.insert "").exists_notMem
  simp only [Set.mem_insert_iff, Set.mem_ofPred_eq, not_or, ne_eq, not_not] at hid
  exact ⟨id, hid.1, hid.2⟩

theorem Supplied.issue (h : w.Supplied) (id : String) (owner : OwnerKey) (name : String) :
    (w.issue id owner name).Supplied := by
  refine (h.insert id).subset fun id' hid' => ?_
  simp only [World.issue, Set.mem_ofPred_eq, Set.mem_insert_iff] at hid' ⊢
  split at hid'
  · exact .inl ‹_›
  · exact .inr hid'

theorem Supplied.of_eq (h : w.Supplied) (hissued : w'.issued = w.issued) : w'.Supplied := by
  unfold Supplied
  rw [hissued]
  exact h

theorem Supplied.answers (h : w.Supplied) {c : DeskCall} {reply : c.Reply}
    (hanswer : w.Answers c reply w') : w'.Supplied := by
  cases c with
  | store c =>
    cases c with
    | fetch key => exact h.of_eq (congrArg World.issued hanswer.1)
    | patchStatus key s version =>
      rcases hanswer with ⟨_, hpatched⟩ | ⟨_, _, ⟨rfl, _⟩ | ⟨_, hpatched⟩⟩
      · exact h.of_eq hpatched.issued
      · exact h
      · exact h.of_eq hpatched.issued
    | publish r e => exact h.of_eq (congrArg World.issued hanswer)
  | manager c =>
    obtain ⟨_, _, rfl⟩ := hanswer
    exact h
  | freshId owner name =>
    obtain ⟨_, _, rfl⟩ := hanswer
    exact h.issue _ owner name
  | publishCounts counts => exact h.of_eq (congrArg World.issued hanswer)
  | startSweep =>
    obtain rfl : w' = _ := hanswer
    exact h
  | startReruns jobs =>
    obtain rfl : w' = _ := hanswer
    exact h

theorem Supplied.step (h : w.Supplied) (hstep : Step w w') : w'.Supplied := by
  cases hstep with
  | @call w₁ ps qs c next reply hask hanswer =>
    have hcaller : Supplied { w with procedures := ps ++ qs } := h
    exact (hcaller.answers hanswer).of_eq rfl
  | _ => exact h

theorem supplied_of_reachable (h : Reachable w) : w.Supplied := by
  induction h with
  | new zone staleness => exact Set.finite_empty.subset fun _ hid => hid rfl
  | step _ hstep ih => exact ih.step hstep

theorem exists_fresh_version (w : World) (key : OwnerKey) : ∃ v, v ∉ w.versions key :=
  (w.versions key).finite_toSet.exists_notMem

/-- Every call that writes no status can be answered without a fault. -/
theorem exists_answer (now : Instant) (h : w.Supplied) {c : DeskCall} (hc : c.Harmless) :
    ∃ reply w', w.AnswersAt now c reply w' := by
  cases c with
  | store c =>
    cases c with
    | fetch key => exact ⟨.ok (w.resources key), w, ⟨rfl, .inl rfl⟩, _, rfl⟩
    | patchStatus key s version => exact hc.elim
    | publish r e => exact ⟨(), w, rfl, trivial⟩
  | manager c => exact ⟨_, _, rfl, rfl⟩
  | freshId owner name =>
    obtain ⟨id, hne, hid⟩ := h.exists_fresh
    exact ⟨id, _, ⟨hne, hid, rfl⟩, trivial⟩
  | publishCounts counts => exact ⟨(), w, rfl, trivial⟩
  | startSweep => exact ⟨(), _, rfl, trivial⟩
  | startReruns jobs => exact ⟨(), _, rfl, trivial⟩

/-- A procedure that writes no status can be carried out. -/
theorem exists_harmless {α : Type} {p : Procedure Desk α} {post : α → Prop} (now : Instant)
    (h : w.Supplied) (hp : p.Asks DeskCall.Harmless post) :
    ∃ w' a, p.AtOnce now w w' a := by
  induction p generalizing w with
  | done a => exact ⟨w, a, rfl, rfl⟩
  | ask c next ih =>
    obtain ⟨reply, w₁, hanswer⟩ := exists_answer now h hp.1
    obtain ⟨w', a, hrest⟩ := ih reply (h.answers hanswer.answers.1) (hp.2 reply)
    exact ⟨w', a, reply, w₁, hanswer, hrest⟩

/-- While the resource is there, its status can be written. -/
theorem exists_written (now : Instant) (h : w.resources key = some r) (s : Status) :
    ∃ w' a, (Reconcile.writeStatus key r s).AtOnce now w w' a := by
  obtain ⟨v, hv⟩ := exists_fresh_version w key
  have hpatched : Answers w (.store (.patchStatus key s r.metadata.resourceVersion)) (.ok ())
      (w.write key { r with status := some s } v) :=
    .inl ⟨rfl, r, v, h, .inr rfl, hv, rfl⟩
  exact ⟨_, _, _, _, ⟨hpatched, rfl⟩, rfl, rfl⟩

theorem exists_finish (now : Instant) (h : w.resources key = some r) (d : Draft) :
    ∃ w' a, (Reconcile.finish key r d).AtOnce now w w' a := by
  have hrest : ∀ w : World, w.resources key = some r → ∃ w' a, (if d.changed then
      Reconcile.writeStatus key r (Reconcile.adopt r.spec (r.status.getD .initial) d.conditions)
      else pure (.ok ())).AtOnce now w w' a := by
    intro w hw
    split
    · exact exists_written now hw _
    · exact ⟨_, _, rfl, rfl⟩
  have hresource : ∀ m, World.resources { w with manager := m } key = some r := fun _ => h
  obtain ⟨w', a, hrest⟩ := hrest _ (hresource _)
  exact ⟨w', a, Procedure.atOnce_manager.2 hrest⟩

/-- A reconcile can be carried out at any reading of the clock with nothing else happening and no
call to the home of the resources failing. -/
theorem exists_atOnce (now : Instant) (h : w.Supplied) (key : OwnerKey) :
    ∃ w', (reconcile key).AtOnce now w w' (.ok ()) := by
  have hcarried : ∃ w' a, (reconcile key).AtOnce now w w' a := by
    have hfetched : w.AnswersAt now (.store (.fetch key)) (.ok (w.resources key)) w :=
      ⟨⟨rfl, .inl rfl⟩, _, rfl⟩
    cases hresource : w.resources key with
    | none =>
      have hrest : (do
          let _ ← Desk.note key none
          let () ← Desk.startSweep
          pure (.ok ()) : Procedure Desk (Except Fault Unit)).Asks DeskCall.Harmless
            fun _ => True := by
        refine (Procedure.asks_ask trivial).seq fun _ _ => ?_
        exact (Procedure.asks_ask trivial).seq fun _ _ => trivial
      obtain ⟨w', a, hserved⟩ := exists_harmless now h hrest
      exact ⟨w', a, .ok none, w, hresource ▸ hfetched, hserved⟩
    | some r =>
      obtain ⟨w₁, d, hdrafted⟩ := exists_harmless now h (Reconcile.harmless_draft key r)
      have hresource₁ : w₁.resources key = some r :=
        (congrFun (hdrafted.resources (Reconcile.harmless_draft key r)) key).trans hresource
      obtain ⟨w', a, hfinished⟩ := exists_finish now hresource₁ d
      have hsettled : (Reconcile.settleResource key r).AtOnce now w w' a := by
        rw [Reconcile.settleResource_eq]
        exact Procedure.atOnce_seq.2 ⟨d, w₁, hdrafted, hfinished⟩
      exact ⟨w', a, .ok (some r), w, hresource ▸ hfetched, hsettled⟩
  obtain ⟨w', a, hserved⟩ := hcarried
  obtain rfl := hserved.yields (yields_reconcile key)
  exact ⟨w', hserved⟩

/-! ### Where nothing fails -/

theorem answersAt_of_oblige? {c : DeskCall} {reply : c.Reply}
    (h : w.oblige? now c = some (reply, w')) : w.AnswersAt now c reply w' := by
  have hanswer := answers_of_oblige? h
  cases c with
  | store c =>
    refine ⟨hanswer, ?_⟩
    cases c with
    | fetch key =>
      obtain ⟨rfl, _⟩ := Prod.mk.inj (Option.some.inj h)
      exact ⟨_, rfl⟩
    | patchStatus key s version =>
      simp only [oblige?] at h
      split at h
      · exact absurd h (Option.some_ne_none _).symm
      · split at h
        · exact (Prod.mk.inj (Option.some.inj h)).1.symm
        · exact absurd h (Option.some_ne_none _).symm
    | publish r e => trivial
  | manager c =>
    obtain ⟨rfl, rfl⟩ := Prod.mk.inj (Option.some.inj h)
    exact ⟨rfl, rfl⟩
  | _ => exact ⟨hanswer, trivial⟩

/-- What a procedure comes to where nothing fails is one of the ways to carry it out. -/
theorem atOnce_of_smooth? {α : Type} {p : Procedure Desk α} {a : α}
    (h : smooth? now p w = some (a, w')) : p.AtOnce now w w' a := by
  induction p generalizing w with
  | done b =>
    obtain ⟨rfl, rfl⟩ := Prod.mk.inj (Option.some.inj h)
    exact ⟨rfl, rfl⟩
  | ask c next ih =>
    obtain ⟨⟨reply, w₁⟩, hanswer, hrest⟩ := Option.bind_eq_some_iff.1 h
    exact ⟨reply, w₁, answersAt_of_oblige? hanswer, ih reply hrest⟩

end World

end CronScale
