import CronScale.Proofs.Manager.World
/-!
# Sound jobs, statuses and procedures

An id belongs for ever to the job of one resource for which it was given out. A job is sound if it
has such an id, and a status if its conditions have names of their own and ids that belong to the
resource; a condition without an id says why the job cannot be built.

A procedure under way may hold copies of resources and of the queue that are long out of date.
`Procedure.Sound` says that nothing it will ask for can make anything unsound, whatever ids are
given out in the meantime.
-/

namespace CronScale

open CronScale.Calendar

/-- Whether all ids given out before are given out still, and for the same jobs. -/
def Issued.Le (i i' : Issued) : Prop := ∀ id owner, i id = some owner → i' id = some owner

theorem Issued.Le.refl (i : Issued) : i.Le i := fun _ _ h => h

theorem Issued.Le.trans {i j k : Issued} (h : i.Le j) (h' : j.Le k) : i.Le k :=
  fun id owner hid => h' id owner (h id owner hid)

/-- What was not given out later was not given out before. -/
theorem Issued.Le.eq_none {i i' : Issued} (h : i.Le i') {id : String} (hid : i' id = none) :
    i id = none :=
  Option.eq_none_iff_forall_ne_some.2 fun owner howner =>
    Option.some_ne_none owner ((h id owner howner).symm.trans hid)

/-- Whether ids were given out, each for a job of its own. -/
def Issued.Distinct (i : Issued) (ids : List String) : Prop :=
  ∀ id ∈ ids, i id ≠ none ∧ ∀ id' ∈ ids, i id' = i id → id' = id

theorem Issued.Distinct.mono {i i' : Issued} {ids : List String} (h : i.Distinct ids)
    (hle : i.Le i') : i'.Distinct ids := by
  have hsame : ∀ id ∈ ids, i' id = i id := by
    intro id hid
    obtain ⟨owner, howner⟩ := Option.ne_none_iff_exists'.1 (h id hid).1
    rw [howner, hle id owner howner]
  intro id hid
  refine ⟨hsame id hid ▸ (h id hid).1, fun id' hid' heq => ?_⟩
  rw [hsame id hid, hsame id' hid'] at heq
  exact (h id hid).2 id' hid' heq

/-! ### Names of their own -/

/-- Where names are distinct, whatever has a name is found by it. -/
theorem find?_of_nodup {α : Type} {name : α → String} {as : List α} {a : α}
    (h : (as.map name).Nodup) (ha : a ∈ as) : as.find? (name · == name a) = some a := by
  induction as with
  | nil => exact absurd ha List.not_mem_nil
  | cons b as ih =>
    rw [List.map_cons, List.nodup_cons] at h
    rcases List.mem_cons.1 ha with rfl | ha
    · simp only [List.find?_cons, beq_self_eq_true]
    · have hne : name b ≠ name a := fun heq => h.1 (heq ▸ List.mem_map_of_mem ha)
      simp only [List.find?_cons, beq_eq_false_iff_ne.2 hne, ih h.2 ha]

theorem eq_of_nodup {α : Type} {name : α → String} {as : List α} {a b : α}
    (h : (as.map name).Nodup) (ha : a ∈ as) (hb : b ∈ as) (heq : name a = name b) : a = b := by
  have hfind := find?_of_nodup h ha
  rw [heq, find?_of_nodup h hb] at hfind
  exact (Option.some.inj hfind).symm

/-! ### Why a job cannot be built -/

/-- What stands against building a job with a name, a schedule and a size for a target in a
namespace. -/
def Job.obstacle (ns : String) (t : TargetSpec) (name schedule : String) (size : Int) :
    Option Fault :=
  match TargetRef.complete t.name ns t.kind t.apiVersion with
  | .error e => some e
  | .ok _ =>
    match Schedule.parse schedule with
    | .error e => some (.unreadable e)
    | .ok _ => if size < 0 then some (.negativeSize name size) else none

theorem Job.build_error_iff {r : Resource} {j : JobSpec} {id : String} {e : Fault} :
    Job.build r j id = .error e ↔
      Job.obstacle r.key.ns r.spec.target j.name j.schedule j.targetSize = some e := by
  unfold Job.build Job.targetOf Job.obstacle
  cases TargetRef.complete r.spec.target.name r.key.ns r.spec.target.kind
      r.spec.target.apiVersion with
  | error f => simp only [Except.error.injEq, Option.some.injEq]
  | ok target =>
    cases Schedule.parse j.schedule with
    | error f => simp only [Except.error.injEq, Option.some.injEq]
    | ok s =>
      by_cases hsize : j.targetSize < 0
      · simp only [hsize, if_true, Except.error.injEq, Option.some.injEq]
      · simp only [hsize, if_false, reduceCtorEq]

/-! ### Sound jobs, conditions and statuses -/

/-- Whether the id of a job was given out for it. -/
structure Job.Sound (i : Issued) (job : Job) : Prop where
  named : job.id ≠ ""
  issued : i job.id = some (job.owner, job.name)

/-- Whether the id of a condition of a resource was given out for a job of its name, and a condition
without an id tells why the job cannot be built for the adopted target. -/
structure Condition.Sound (i : Issued) (owner : OwnerKey) (t : Option TargetSpec) (c : Condition) :
    Prop where
  issued : c.jobId ≠ "" → i c.jobId = some (owner, c.name)
  notFailure : c.jobId ≠ "" → ∀ e, c.message ≠ Reconcile.buildFailure c.name e
  failure : c.jobId = "" → ∃ target e, t = some target ∧
    Job.obstacle owner.ns target c.name c.schedule c.targetSize = some e ∧ c.state = .failed ∧
    c.message = Reconcile.buildFailure c.name e

/-- Whether the conditions of a status are sound and have names of their own. -/
structure Status.Sound (i : Issued) (owner : OwnerKey) (s : Status) : Prop where
  distinct : (s.conditions.map Condition.name).Nodup
  conditions : ∀ c ∈ s.conditions, c.Sound i owner s.target

/-- Whether a copy of a resource is filed under its own key and has a sound status. -/
structure Resource.Sound (i : Issued) (key : OwnerKey) (r : Resource) : Prop where
  filed : r.key = key
  status : ∀ s, r.status = some s → s.Sound i key

section

variable {i i' : Issued}

theorem Job.Sound.mono {job : Job} (h : job.Sound i) (hle : i.Le i') : job.Sound i' :=
  ⟨h.named, hle _ _ h.issued⟩

theorem Condition.Sound.mono {owner : OwnerKey} {t : Option TargetSpec} {c : Condition}
    (h : c.Sound i owner t) (hle : i.Le i') : c.Sound i' owner t :=
  ⟨fun hid => hle _ _ (h.issued hid), h.notFailure, h.failure⟩

theorem Status.Sound.mono {owner : OwnerKey} {s : Status} (h : s.Sound i owner) (hle : i.Le i') :
    s.Sound i' owner :=
  ⟨h.distinct, fun c hc => (h.conditions c hc).mono hle⟩

theorem Resource.Sound.mono {key : OwnerKey} {r : Resource} (h : r.Sound i key)
    (hle : i.Le i') : r.Sound i' key :=
  ⟨h.filed, fun s hs => (h.status s hs).mono hle⟩

theorem Status.sound_initial (i : Issued) (owner : OwnerKey) : Status.initial.Sound i owner :=
  ⟨List.nodup_nil, fun _ h => absurd h List.not_mem_nil⟩

/-- The status of a copy, or the one that stands for none. -/
theorem Resource.Sound.status_getD {key : OwnerKey} {r : Resource} (h : r.Sound i key) :
    (r.status.getD .initial).Sound i key := by
  cases hs : r.status with
  | none => exact Status.sound_initial i key
  | some s => exact h.status s hs

end

/-! ### Sound procedures -/

namespace DeskCall

/-- Whether a call cannot break the invariant; of the jobs of a resource no two of one name may be
retained. -/
def Sound (i : Issued) : DeskCall → Prop
  | .store (.patchStatus key s _) => s.Sound i key
  | .manager (.createOrUpdate job) => job.Sound i
  | .manager (.retainOwned _ keep) => i.Distinct keep
  | .startReruns jobs => ∀ job ∈ jobs, job.Sound i
  | _ => True

/-- Whether a call leaves the statuses and the jobs of all resources but one alone. -/
def Within (key : OwnerKey) (i : Issued) : DeskCall → Prop
  | .store (.patchStatus k _ _) => k = key
  | .manager (.createOrUpdate job) => job.owner = key
  | .manager (.delete id) => ∃ name, i id = some (key, name)
  | .manager (.deleteOwnedBy owner) => owner = key
  | .manager (.retainOwned owner _) => owner = key
  | .manager (.resubmit _) => False
  | _ => True

/-- What the invariant says about an answer. -/
def Fits (i : Issued) : (c : DeskCall) → c.Reply → Prop
  | .store (.fetch key), reply => ∀ r, reply = .ok (some r) → r.Sound i key
  | .manager (.queuedId owner name), reply =>
    ∀ id, reply = some id → id ≠ "" ∧ i id = some (owner, name)
  | .manager .snapshot, jobs => ∀ job ∈ (show List Job from jobs), job.Sound i
  | .freshId owner name, id => id ≠ "" ∧ i id = some (owner, name)
  | _, _ => True

variable {i i' : Issued}

theorem Sound.mono {c : DeskCall} (h : c.Sound i) (hle : i.Le i') : c.Sound i' := by
  cases c with
  | store c =>
    cases c with
    | patchStatus key s version => exact Status.Sound.mono h hle
    | fetch key => trivial
    | publish r e => trivial
  | manager c =>
    cases c with
    | createOrUpdate job => exact Job.Sound.mono h hle
    | retainOwned owner keep => exact Issued.Distinct.mono h hle
    | _ => trivial
  | startReruns jobs => exact fun job hjob => (h job hjob).mono hle
  | _ => trivial

theorem Within.mono {key : OwnerKey} {c : DeskCall} (h : c.Within key i) (hle : i.Le i') :
    c.Within key i' := by
  cases c with
  | store c => cases c <;> exact h
  | manager c =>
    cases c with
    | delete id =>
      obtain ⟨name, hid⟩ := h
      exact ⟨name, hle _ _ hid⟩
    | _ => exact h
  | _ => trivial

theorem Fits.mono {c : DeskCall} {reply : c.Reply} (h : c.Fits i reply) (hle : i.Le i') :
    c.Fits i' reply := by
  cases c with
  | store c =>
    cases c with
    | fetch key => exact fun r hr => (h r hr).mono hle
    | _ => trivial
  | manager c =>
    cases c with
    | queuedId owner name => exact fun id hid => ⟨(h id hid).1, hle _ _ (h id hid).2⟩
    | snapshot => exact fun job hjob => (h job hjob).mono hle
    | _ => trivial
  | freshId owner name => exact ⟨h.1, hle _ _ h.2⟩
  | _ => trivial

end DeskCall

namespace Procedure

variable {α β : Type}

/-- Whether everything that a procedure will ask for is allowed, and its result has a property,
whatever ids are given out in the meantime. -/
def Keeps (allowed : Issued → DeskCall → Prop) (post : Issued → α → Prop) :
    Procedure Desk α → Issued → Prop
  | .done a, i => post i a
  | .ask c next, i =>
    allowed i c ∧ ∀ i' reply, i.Le i' → c.Fits i' reply → Keeps allowed post (next reply) i'

/-- Whether a procedure cannot break the invariant. -/
def Sound (p : Procedure Desk α) (i : Issued) : Prop :=
  p.Keeps DeskCall.Sound (fun _ _ => True) i

variable {allowed allowed' : Issued → DeskCall → Prop} {post post' : Issued → α → Prop}
  {i i' : Issued}

theorem Keeps.mono {p : Procedure Desk α} (h : p.Keeps allowed post i)
    (hallowed : ∀ c, allowed i c → allowed i' c) (hpost : ∀ a, post i a → post i' a)
    (hle : i.Le i') : p.Keeps allowed post i' := by
  cases p with
  | done a => exact hpost a h
  | ask c next => exact ⟨hallowed c h.1, fun i'' reply hle' => h.2 i'' reply (hle.trans hle')⟩

theorem Sound.mono {p : Procedure Desk α} (h : p.Sound i) (hle : i.Le i') : p.Sound i' :=
  Keeps.mono h (fun _ hc => hc.mono hle) (fun _ _ => trivial) hle

theorem Keeps.weaken {p : Procedure Desk α} (h : p.Keeps allowed post i)
    (hallowed : ∀ i c, allowed i c → allowed' i c)
    (hpost : ∀ i' a, i.Le i' → post i' a → post' i' a) : p.Keeps allowed' post' i := by
  induction p generalizing i with
  | done a => exact hpost i a (.refl i) h
  | ask c next ih =>
    refine ⟨hallowed i c h.1, fun i' reply hle hfits => ?_⟩
    exact ih reply (h.2 i' reply hle hfits) fun i'' a hle' => hpost i'' a (hle.trans hle')

theorem Keeps.bind {p : Procedure Desk α} {f : α → Procedure Desk β} {post' : Issued → β → Prop}
    (h : p.Keeps allowed post i)
    (hf : ∀ i' a, i.Le i' → post i' a → (f a).Keeps allowed post' i') :
    (p.bind f).Keeps allowed post' i := by
  induction p generalizing i with
  | done a => exact hf i a (.refl i) h
  | ask c next ih =>
    refine ⟨h.1, fun i' reply hle hfits => ?_⟩
    exact ih reply (h.2 i' reply hle hfits) fun i'' a hle' => hf i'' a (hle.trans hle')

/-- `Keeps.bind` for sequences written in the notation of monads. -/
theorem Keeps.seq {p : Procedure Desk α} {f : α → Procedure Desk β} {post' : Issued → β → Prop}
    (h : p.Keeps allowed post i)
    (hf : ∀ i' a, i.Le i' → post i' a → (f a).Keeps allowed post' i') :
    (p >>= f).Keeps allowed post' i :=
  h.bind hf

theorem keeps_ask {c : DeskCall} (h : allowed i c) :
    (Desk.ask c).Keeps allowed (fun i' reply => c.Fits i' reply) i :=
  ⟨h, fun _ _ _ hfits => hfits⟩

theorem Keeps.sound {p : Procedure Desk α} (h : p.Keeps DeskCall.Sound post i) : p.Sound i :=
  h.weaken (fun _ _ h => h) fun _ _ _ _ => trivial

theorem Sound.task {p : Procedure Desk α} (h : p.Sound i) : (World.task p).Sound i :=
  Keeps.bind h fun _ _ _ _ => trivial

end Procedure

end CronScale
