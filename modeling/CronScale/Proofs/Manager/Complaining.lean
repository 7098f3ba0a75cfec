import Mathlib.Data.List.Induction
import CronScale.Proofs.Exchanges
import CronScale.Proofs.Manager.Deliveries
import CronScale.Proofs.Manager.Handling
import CronScale.Proofs.Manager.Races
import CronScale.Proofs.Manager.Repetition
import CronScale.Proofs.Scaling.Performance
/-!
# When a complaint is made known

A manager sees to errands: it reconciles and forgets resources and collects lost jobs. Any number of
errands are under way at once, for any resources, each at some point between two of its calls; the
calls are made one at a time and listed in a log. The manager's own steps are answered by the
manager, and everything else is answered in any way: a resource may be found with a different
specification every time, and writes of its status may fail.

The manager's memory of complaints is what the log says about them (`recalled`), since every remark
about a resource is in the log (`Office.Sound`). So the log tells which complaints a reconcile has
made known, whatever happened to other resources, and whatever came of the writes
(`Office.complaints_told`).
-/

namespace CronScale

open CronScale.Calendar

/-! ### The course of a procedure -/

namespace Procedure

section

variable {I : Interface} {α : Type}

/-- Whether a procedure has asked and was answered what is listed, and what is left of it then. -/
inductive Course : Procedure I α → List (Exchange I) → Procedure I α → Prop
  | here (p : Procedure I α) : Course p [] p
  | ask {c : I.Call} {next : I.Reply c → Procedure I α} {reply : I.Reply c}
      {xs : List (Exchange I)} {q : Procedure I α} (hrest : Course (next reply) xs q) :
      Course (.ask c next) (⟨c, reply⟩ :: xs) q

variable {p q : Procedure I α} {xs : List (Exchange I)} {c : I.Call}
  {next : I.Reply c → Procedure I α}

/-- The next call belongs to the course. -/
theorem Course.concat (h : Course p xs (.ask c next)) (reply : I.Reply c) :
    Course p (xs ++ [⟨c, reply⟩]) (next reply) := by
  generalize hq : Procedure.ask c next = q at h
  induction h with
  | here p =>
    subst hq
    exact .ask (.here _)
  | ask _ ih => exact .ask (ih hq)

theorem Course.of_done {a : α} (h : Course (.done a) xs q) : xs = [] ∧ q = .done a := by
  cases h with
  | here => exact ⟨rfl, rfl⟩

/-- A procedure that asks has not been answered yet, or has gone on with the answer. -/
theorem Course.of_ask (h : Course (.ask c next) xs q) :
    xs = [] ∧ q = .ask c next ∨
      ∃ reply ys, xs = ⟨c, reply⟩ :: ys ∧ Course (next reply) ys q := by
  cases h with
  | here => exact .inl ⟨rfl, rfl⟩
  | ask hrest => exact .inr ⟨_, _, rfl, hrest⟩

/-- A procedure that asks and is done now was answered. -/
theorem Course.of_ask_done {a : α} (h : Course (.ask c next) xs (.done a)) :
    ∃ reply ys, xs = ⟨c, reply⟩ :: ys ∧ Course (next reply) ys (.done a) := by
  rcases h.of_ask with ⟨_, hq⟩ | hasked
  · cases hq
  · exact hasked

end

theorem Asks.course {α : Type} {test : DeskCall → Prop} {post : α → Prop} {p q : Procedure Desk α}
    {xs : List (Exchange Desk)} (h : p.Asks test post) (hcourse : Course p xs q) :
    (∀ x ∈ xs, test x.call) ∧ q.Asks test post := by
  induction hcourse with
  | here p => exact ⟨fun _ hx => absurd hx List.not_mem_nil, h⟩
  | ask _ ih =>
    obtain ⟨hxs, hq⟩ := ih (h.2 _)
    exact ⟨List.forall_mem_cons.2 ⟨h.1, hxs⟩, hq⟩

end Procedure

/-! ### Remarks about a resource -/

/-- What a call says about the complaint about a resource, if it says anything: what the complaint
is, or that there is none. -/
def DeskCall.remark? (key : OwnerKey) : DeskCall → Option (Option String)
  | .manager (.note owner complaint) => if owner = key then some complaint else none
  | .manager (.dropComplaint owner) => if owner = key then some none else none
  | _ => none

/-- Whether a call remarks nothing about any resource and publishes no event. -/
def DeskCall.Mute : DeskCall → Prop
  | .store (.publish _ _) => False
  | .manager (.note _ _) => False
  | .manager (.dropComplaint _) => False
  | _ => True

/-- Whether a call remarks nothing about any resource and drops no job by its id. -/
def DeskCall.Sparing : DeskCall → Prop
  | .manager (.note _ _) => False
  | .manager (.dropComplaint _) => False
  | .manager (.delete _) => False
  | _ => True

theorem DeskCall.remark?_eq_some {c : DeskCall} {key : OwnerKey} {complaint : Option String}
    (h : c.remark? key = some complaint) :
    c = .manager (.note key complaint) ∨ c = .manager (.dropComplaint key) ∧ complaint = none := by
  unfold remark? at h
  split at h
  · split at h
    · rename_i howner
      obtain rfl := Option.some.inj h
      exact .inl (howner ▸ rfl)
    · cases h
  · split at h
    · rename_i howner
      obtain rfl := Option.some.inj h
      exact .inr ⟨howner ▸ rfl, rfl⟩
    · cases h
  · cases h

theorem DeskCall.Mute.remark? {c : DeskCall} (h : c.Mute) (key : OwnerKey) :
    c.remark? key = none := by
  cases c with
  | manager c =>
    cases c with
    | note owner complaint => exact h.elim
    | dropComplaint owner => exact h.elim
    | _ => rfl
  | _ => rfl

theorem DeskCall.Sparing.remark? {c : DeskCall} (h : c.Sparing) (key : OwnerKey) :
    c.remark? key = none := by
  cases c with
  | manager c =>
    cases c with
    | note owner complaint => exact h.elim
    | dropComplaint owner => exact h.elim
    | _ => rfl
  | _ => rfl

/-- The wording of all complaints about a specification. -/
def Spec.wording (s : Spec) : String := Text.join "; " (s.complaints.map Complaint.text)

theorem Spec.complaintText_eq (s : Spec) :
    s.complaintText = if s.complaints = [] then none else some s.wording := by
  unfold complaintText wording
  cases s.complaints with
  | nil => rfl
  | cons c cs => rfl

namespace Manager

theorem complaint_note_of_ne (m : Manager) {owner key : OwnerKey} (hne : owner ≠ key)
    (complaint : Option String) :
    (m.note owner complaint).2.complaints.get? key = m.complaints.get? key := by
  cases complaint with
  | none => simp only [note, dropComplaint, Table.get?_erase, hne.symm, if_false]
  | some text =>
    simp only [note]
    split
    · rfl
    · simp only [Table.get?_insert, hne.symm, if_false]

/-- A complaint is new if it is not the one that is remembered. -/
theorem note_fst (m : Manager) (owner : OwnerKey) (complaint : Option String) :
    (m.note owner complaint).1 =
      (complaint.isSome && m.complaints.get? owner != complaint) := by
  cases complaint with
  | none => rfl
  | some text =>
    simp only [note]
    split
    · rename_i hknown
      simp [hknown]
    · rename_i hnew
      simp [hnew]

/-- What a manager remembers about a resource is what was remarked last. -/
theorem complaint_answer_remark (m : Manager) (now : Instant) (c : ManagerCall) (key : OwnerKey) :
    (m.answer now c).2.complaints.get? key =
      ((DeskCall.manager c).remark? key).getD (m.complaints.get? key) := by
  by_cases hnote : ∃ owner complaint, c = .note owner complaint
  · obtain ⟨owner, complaint, rfl⟩ := hnote
    by_cases howner : owner = key
    · subst howner
      simp only [DeskCall.remark?, if_true, Option.getD_some]
      exact complaint_note m owner complaint
    · simp only [DeskCall.remark?, howner, if_false, Option.getD_none]
      exact complaint_note_of_ne m howner complaint
  · by_cases hdrop : ∃ owner, c = .dropComplaint owner
    · obtain ⟨owner, rfl⟩ := hdrop
      simp only [answer, dropComplaint, Table.get?_erase, DeskCall.remark?]
      by_cases howner : owner = key
      · simp [howner]
      · have howner' : key ≠ owner := fun heq => howner heq.symm
        simp [howner, howner']
    · have hnone : (DeskCall.manager c).remark? key = none := by
        cases hremark : (DeskCall.manager c).remark? key with
        | none => rfl
        | some complaint =>
          rcases DeskCall.remark?_eq_some hremark with heq | ⟨heq, _⟩
          · exact absurd ⟨key, complaint, DeskCall.manager.inj heq⟩ hnote
          · exact absurd ⟨key, DeskCall.manager.inj heq⟩ hdrop
      rw [hnone, Option.getD_none]
      exact complaint_answer rfl (fun o t heq => absurd ⟨o, t, heq⟩ hnote)
        (fun o heq => hdrop ⟨o, heq⟩) now

end Manager

/-! ### What the errands remark -/

namespace Reconcile

variable {key : OwnerKey} {r : Resource}

theorem settleResource_complains (key : OwnerKey) (r : Resource) : ∃ rest,
    settleResource key r = (complain key r >>= fun _ => rest) ∧
      rest.Asks DeskCall.Mute fun _ => True := by
  refine ⟨_, rfl, ?_⟩
  refine (asks_divide (fun _ _ => trivial) trivial r.spec).seq fun p _ => ?_
  obtain ⟨left, reusable⟩ := p
  refine (asks_settleJobs_each trivial (fun _ => trivial) (fun _ => trivial)
    (fun _ _ => trivial) (fun _ _ => trivial) r.spec.jobs _).seq fun d _ => ?_
  refine (Procedure.asks_ask trivial).seq fun _ _ => ?_
  split
  · refine (Procedure.asks_ask trivial).seq fun reply _ => ?_
    cases reply with
    | ok u => trivial
    | error e => trivial
  · trivial

/-- The event by which a complaint about a resource is made known. -/
def invalidSpec (r : Resource) (text : String) : Resource × Event :=
  (r, ⟨.warning, "InvalidSpec", text⟩)

/-- Makes a complaint about a resource known if it is new, before something else. -/
def announce (r : Resource) (rest : Procedure Desk Unit) (new : Bool) : Procedure Desk Unit :=
  match new, r.spec.complaintText with
  | true, some text => .ask (.store (.publish r (invalidSpec r text).2)) fun _ => rest
  | _, _ => rest

/-- A reconcile that has found its resource remarks on the complaint about it, and makes it known if
it is new. Nothing that it does then has to do with complaints. -/
theorem task_settleResource (key : OwnerKey) (r : Resource) : ∃ rest : Procedure Desk Unit,
    World.task (settleResource key r) =
      .ask (.manager (.note key r.spec.complaintText)) (announce r rest) ∧
    rest.Asks DeskCall.Mute fun _ => True := by
  obtain ⟨rest, heq, hmute⟩ := settleResource_complains key r
  rw [heq]
  refine ⟨World.task rest, congrArg (Procedure.ask _) (funext fun new => ?_), hmute.task⟩
  cases new with
  | false => exact rfl
  | true =>
    unfold announce
    cases r.spec.complaintText with
    | none => exact rfl
    | some text => exact rfl

theorem asks_announce {rest : Procedure Desk Unit} (h : rest.Asks DeskCall.Mute fun _ => True)
    (r : Resource) (new : Bool) (key : OwnerKey) :
    (announce r rest new).Asks (fun c => c.remark? key = none) fun _ => True := by
  have hrest := h.weaken (fun _ hc => hc.remark? key) fun _ hu => hu
  unfold announce
  split
  · exact ⟨rfl, fun _ => hrest⟩
  · exact hrest

end Reconcile

/-- The calls of a pass that drop jobs and remark on their resources: the job of a list that is
dropped but whose resource is still to be remarked on, before and after a call. -/
inductive Expiring (jobs : List Job) : Option Job → DeskCall → Option Job → Prop
  | delete {job : Job} (hjob : job ∈ jobs) :
      Expiring jobs none (.manager (.delete job.id)) (some job)
  | drop (job : Job) : Expiring jobs (some job) (.manager (.dropComplaint job.owner)) none
  | other {c : DeskCall} (hc : c.Sparing) : Expiring jobs none c none

namespace Procedure

variable {α β : Type} {jobs : List Job}

/-- Whether a procedure drops only jobs of a list by their ids, each with the memory of its resource
right afterwards. -/
def Expires (jobs : List Job) : Option Job → Procedure Desk α → Prop
  | pending, .done _ => pending = none
  | pending, .ask c next => ∃ pending', Expiring jobs pending c pending' ∧
    ∀ reply, Expires jobs pending' (next reply)

variable {pending : Option Job} {p q : Procedure Desk α} {xs : List (Exchange Desk)}

theorem Expires.seq {f : α → Procedure Desk β} (h : p.Expires jobs pending)
    (hf : ∀ a, (f a).Expires jobs none) : (p >>= f).Expires jobs pending := by
  induction p generalizing pending with
  | done a =>
    obtain rfl : pending = none := h
    exact hf a
  | ask c next ih =>
    obtain ⟨pending', hcall, hnext⟩ := h
    exact ⟨pending', hcall, fun reply => ih reply (hnext reply)⟩

theorem Asks.expires {post : α → Prop} (h : p.Asks DeskCall.Sparing post) :
    p.Expires jobs none := by
  induction p with
  | done a => rfl
  | ask c next ih => exact ⟨none, .other h.1, fun reply => ih reply (h.2 reply)⟩

/-- A job whose resource is still to be remarked on was dropped by the last call. -/
theorem Expires.course (h : p.Expires jobs pending) (hcourse : Course p xs q) :
    ∃ pending', q.Expires jobs pending' ∧ ∀ job, pending' = some job →
      xs = [] ∧ pending = some job ∨
        job ∈ jobs ∧ ∃ ys reply, xs = ys ++ [⟨.manager (.delete job.id), reply⟩] := by
  induction hcourse generalizing pending with
  | here p => exact ⟨pending, h, fun job hjob => .inl ⟨rfl, hjob⟩⟩
  | @ask c next reply xs q hrest ih =>
    obtain ⟨pending₁, hcall, hnext⟩ := h
    obtain ⟨pending', hq, hpending⟩ := ih (hnext reply)
    refine ⟨pending', hq, fun job hjob => .inr ?_⟩
    rcases hpending job hjob with ⟨rfl, hsome⟩ | ⟨hmem, ys, reply', rfl⟩
    · subst hsome
      cases hcall with
      | delete hmem => exact ⟨hmem, [], reply, rfl⟩
    · exact ⟨hmem, ⟨c, reply⟩ :: ys, reply', rfl⟩

theorem Expires.drops {job : Job} (h : p.Expires jobs (some job)) :
    ∃ next, p = .ask (.manager (.dropComplaint job.owner)) next := by
  cases p with
  | done a => cases h
  | ask c next =>
    obtain ⟨pending', hcall, _⟩ := h
    cases hcall with
    | drop => exact ⟨next, rfl⟩

/-- When a procedure is done, each drop of a job was followed by that of the memory of its
resource. -/
theorem Expires.followed {a : α} (h : p.Expires jobs pending) (hcourse : Course p xs (.done a))
    {own : List (Exchange Desk)} {id : String} {reply : Bool} {after : List (Exchange Desk)}
    (hxs : xs = own ++ ⟨.manager (.delete id), reply⟩ :: after) :
    ∃ job ∈ jobs, job.id = id ∧
      ∃ later, after = ⟨.manager (.dropComplaint job.owner), ()⟩ :: later := by
  generalize hq : Procedure.done a = q at hcourse
  induction hcourse generalizing pending own with
  | here p => exact absurd hxs.symm (by simp)
  | @ask c next reply' xs q hrest ih =>
    subst hq
    obtain ⟨pending', hcall, hnext⟩ := h
    cases own with
    | cons x own => exact ih (hnext reply') (List.cons.inj hxs).2 rfl
    | nil =>
      obtain ⟨hfirst, rfl⟩ := List.cons.inj hxs
      obtain ⟨rfl, -⟩ := Exchange.mk.inj hfirst
      cases hcall with
      | other hsparing => exact hsparing.elim
      | @delete job hjob =>
        refine ⟨job, hjob, rfl, ?_⟩
        obtain ⟨next', hdrop⟩ := (hnext reply').drops
        rw [hdrop] at hrest
        obtain ⟨u, ys, rfl, _⟩ := hrest.of_ask_done
        exact ⟨ys, rfl⟩

end Procedure

namespace Sweep

variable {jobs : List Job}

theorem sparing_ownerOf (s : Sweep) (owner : OwnerKey) :
    (s.ownerOf owner).Asks DeskCall.Sparing fun _ => True := by
  unfold ownerOf
  split
  · trivial
  · refine (Procedure.asks_ask trivial).seq fun reply _ => ?_
    cases reply with
    | ok r => trivial
    | error e => trivial

theorem sparing_renew (s : Sweep) (job : Job) :
    (s.renew job).Asks DeskCall.Sparing fun _ => True :=
  (Procedure.asks_ask trivial).seq fun _ _ => trivial

theorem sparing_inspect (s : Sweep) (r : Resource) (job : Job) :
    (s.inspect r job).Asks DeskCall.Sparing fun _ => True := by
  refine (Procedure.asks_ask trivial).seq fun reply _ => ?_
  cases reply with
  | found => trivial
  | notFound => exact sparing_renew s job
  | outOfDate missed => exact (Procedure.asks_ask trivial).seq fun _ _ => sparing_renew _ job

theorem expires_visit (s : Sweep) {job : Job} (hjob : job ∈ jobs) :
    (s.visit job).Expires jobs none := by
  refine (sparing_ownerOf s job.owner).expires.seq fun p => ?_
  obtain ⟨owner, s⟩ := p
  match owner with
  | none => exact rfl
  | some none => exact ⟨some job, .delete hjob, fun _ => ⟨none, .drop job, fun _ => rfl⟩⟩
  | some (some r) => exact (sparing_inspect s r job).expires

theorem expires_visitAll (s : Sweep) {js : List Job} (hjs : ∀ job ∈ js, job ∈ jobs) :
    (visitAll s js).Expires jobs none := by
  induction js generalizing s with
  | nil => exact rfl
  | cons job js ih =>
    obtain ⟨hjob, hjs⟩ := List.forall_mem_cons.1 hjs
    exact (expires_visit s hjob).seq fun s' => ih s' hjs

end Sweep

/-- A pass copies the queue, and then drops jobs of its copy only. -/
theorem task_sweep_eq : ∃ next, World.task sweep = .ask (.manager .snapshot) next ∧
    ∀ jobs : List Job, (next jobs).Expires jobs none := by
  refine ⟨_, rfl, fun jobs => ?_⟩
  refine ((Sweep.expires_visitAll {} fun _ hjob => hjob).seq fun s => ?_).seq fun _ => rfl
  refine Procedure.Asks.expires (show Procedure.Asks _ (fun _ => True) _ from ?_)
  refine (Procedure.asks_ask trivial).seq fun _ _ => ?_
  refine (Procedure.asks_ask trivial).seq fun _ _ => ?_
  cases s.rerunOrder with
  | nil => trivial
  | cons job js => exact (Procedure.asks_ask trivial).seq fun _ _ => trivial

/-! ### Errands and their log -/

/-- What a manager sees to. -/
inductive Errand where
  | reconcile (key : OwnerKey)
  | forget (key : OwnerKey)
  | sweep

def Errand.procedure : Errand → Procedure Desk Unit
  | reconcile key => World.task (CronScale.reconcile key)
  | forget key => World.task (Desk.forget key)
  | sweep => World.task CronScale.sweep

/-- A call that was made for the errand with a number. -/
structure LogEntry where
  number : Nat
  errand : Errand
  exchange : Exchange Desk

def LogEntry.remark? (key : OwnerKey) (x : LogEntry) : Option (Option String) :=
  x.exchange.call.remark? key

/-- What was asked and answered for the errand with a number. -/
def callsOf (n : Nat) (log : List LogEntry) : List (Exchange Desk) :=
  (log.filter (·.number = n)).map LogEntry.exchange

/-- The complaint about a resource that was remarked on last, unless it was dropped since. -/
def recalled (key : OwnerKey) (log : List LogEntry) : Option String :=
  ((log.filterMap (LogEntry.remark? key)).getLast?).join

def Exchange.published? (x : Exchange Desk) : Option (Resource × Event) :=
  match x.call with
  | .store (.publish r e) => some (r, e)
  | _ => none

/-- The events that were published for the errand with a number. -/
def publishedBy (n : Nat) (log : List LogEntry) : List (Resource × Event) :=
  (callsOf n log).filterMap Exchange.published?

section

variable {log : List LogEntry} {x : LogEntry} {n : Nat}

theorem callsOf_append (n : Nat) (e : Errand) (y : Exchange Desk) :
    callsOf n (log ++ [⟨n, e, y⟩]) = callsOf n log ++ [y] := by
  simp [callsOf]

theorem callsOf_append_of_ne (h : x.number ≠ n) : callsOf n (log ++ [x]) = callsOf n log := by
  simp [callsOf, h]

theorem callsOf_eq_nil (h : ∀ x ∈ log, x.number ≠ n) : callsOf n log = [] := by
  simpa [callsOf] using h

theorem recalled_append (key : OwnerKey) :
    recalled key (log ++ [x]) = (x.remark? key).getD (recalled key log) := by
  unfold recalled
  cases hremark : x.remark? key with
  | none => simp [hremark]
  | some complaint => simp [hremark]

/-- Where a call for an errand stands in the log. -/
theorem exists_of_callsOf {xs ys : List (Exchange Desk)} {e : Exchange Desk}
    (h : callsOf n log = xs ++ e :: ys) : ∃ earlier x later,
      log = earlier ++ x :: later ∧ x.number = n ∧ x.exchange = e ∧ callsOf n earlier = xs := by
  obtain ⟨first, rest, hsplit, hfirst, hrest⟩ := List.map_eq_append_iff.1 h
  obtain ⟨x, rest', rfl, hx, -⟩ := List.map_eq_cons_iff.1 hrest
  obtain ⟨earlier, later, hlog, hearlier, hlater⟩ := List.filter_eq_append_iff.1 hsplit
  obtain ⟨skipped, later', hlater', hskipped, hnumber, -⟩ := List.filter_eq_cons_iff.1 hlater
  refine ⟨earlier ++ skipped, x, later', by simp [hlog, hlater'], by simpa using hnumber, hx, ?_⟩
  have hnone : skipped.filter (·.number = n) = [] := by
    simpa using hskipped
  rw [callsOf, List.filter_append, hnone, List.append_nil, hearlier, hfirst]

end

/-- A manager with the errands that it was given, with what is left of each, and with all calls that
were made for them. -/
structure Office where
  manager : Manager
  errands : List (Errand × Procedure Desk Unit)
  log : List LogEntry

namespace Office

def new (zone : Zone) (staleness : Int) : Office := ⟨.empty zone staleness, [], []⟩

/-- What can happen. -/
inductive Event where
  /-- An errand is given. Passes that collect lost jobs may be given at any time, also when a
  reconcile asks for one. -/
  | begin (e : Errand)
  /-- The next call for an errand is made at some time. All calls but those for the manager's own
  steps are answered in any way. -/
  | answer (n : Nat) (now : Instant) (others : Desk.Replies)
  /-- Queue and agenda become what they may, by whatever else happens. -/
  | otherwise (queue : Table String Job) (engine : Engine Job)

def reply (m : Manager) (now : Instant) (others : Desk.Replies) : (c : DeskCall) → c.Reply × Manager
  | .manager c => m.answer now c
  | c => (others c, m)

/-- What an event makes of an office. Errands that are not there or are over are passed over. -/
def step (o : Office) : Event → Office
  | .begin e => { o with errands := o.errands ++ [(e, e.procedure)] }
  | .answer n now others =>
    match o.errands[n]? with
    | some (e, .ask c next) =>
      let (r, m) := reply o.manager now others c
      ⟨m, o.errands.set n (e, next r), o.log ++ [⟨n, e, ⟨c, r⟩⟩]⟩
    | _ => o
  | .otherwise queue engine =>
    { o with manager := { o.manager with queue := queue, engine := engine } }

def run (o : Office) (events : List Event) : Office := events.foldl step o

theorem run_append (o : Office) (events : List Event) (e : Event) :
    o.run (events ++ [e]) = (o.run events).step e := by
  rw [run, List.foldl_append]
  rfl

/-! ### Memory and log -/

/-- Whether an entry of a log is a call that was to be made for its errand, with the manager's
answer if it is a remark. -/
structure Genuine (earlier : List LogEntry) (x : LogEntry) : Prop where
  course : ∃ next, Procedure.Course x.errand.procedure (callsOf x.number earlier)
    (.ask x.exchange.call next)
  noted : ∀ key complaint new, x.exchange = ⟨.manager (.note key complaint), new⟩ →
    new = (complaint.isSome && recalled key earlier != complaint)

/-- Whether the log of an office tells what the manager remembers and where the errands stand. -/
structure Sound (o : Office) : Prop where
  recalled : ∀ key, o.manager.complaints.get? key = recalled key o.log
  courses : ∀ n e p, o.errands[n]? = some (e, p) →
    Procedure.Course e.procedure (callsOf n o.log) p
  given : ∀ x ∈ o.log, ∃ p, o.errands[x.number]? = some (x.errand, p)
  genuine : ∀ earlier x, earlier ++ [x] <+: o.log → Genuine earlier x

section

variable {o : Office} {n : Nat} {e : Errand} {now : Instant} {others : Desk.Replies}
  {c : DeskCall} {next : c.Reply → Procedure Desk Unit}

theorem step_answer (h : o.errands[n]? = some (e, .ask c next)) :
    o.step (.answer n now others) =
      ⟨(reply o.manager now others c).2,
        o.errands.set n (e, next (reply o.manager now others c).1),
        o.log ++ [⟨n, e, ⟨c, (reply o.manager now others c).1⟩⟩]⟩ := by
  simp only [step, h]

/-- The memory changes by remarks only. -/
theorem complaint_reply (m : Manager) (key : OwnerKey) :
    (reply m now others c).2.complaints.get? key =
      (c.remark? key).getD (m.complaints.get? key) := by
  cases c with
  | manager c => exact m.complaint_answer_remark now c key
  | _ => rfl

theorem sound_new (zone : Zone) (staleness : Int) : Sound (new zone staleness) where
  recalled := fun _ => rfl
  courses := fun n e p h => absurd h (by simp [new])
  given := fun x hx => absurd hx List.not_mem_nil
  genuine := fun earlier x h => absurd (List.prefix_nil.1 h) (by simp)

theorem Sound.begin (h : o.Sound) (e : Errand) : (o.step (.begin e)).Sound where
  recalled := h.recalled
  courses := by
    intro n e' p hn
    have hlength : n < (o.errands ++ [(e, e.procedure)]).length :=
      (List.getElem?_eq_some_iff.1 hn).1
    rw [List.length_append, List.length_singleton] at hlength
    rcases Nat.lt_succ_iff_lt_or_eq.1 hlength with hlt | rfl
    · exact h.courses n e' p (by simpa [step, List.getElem?_append_left hlt] using hn)
    · obtain ⟨rfl, rfl⟩ : e = e' ∧ e.procedure = p := by simpa [step] using hn
      have hnone : callsOf o.errands.length o.log = [] := by
        refine callsOf_eq_nil fun x hx heq => ?_
        obtain ⟨p, hp⟩ := h.given x hx
        exact absurd (heq ▸ hp) (by simp)
      exact hnone ▸ .here _
  given := by
    intro x hx
    obtain ⟨p, hp⟩ := h.given x hx
    have hlt := (List.getElem?_eq_some_iff.1 hp).1
    exact ⟨p, by simpa [step, List.getElem?_append_left hlt] using hp⟩
  genuine := h.genuine

theorem Sound.answer (h : o.Sound) (hn : o.errands[n]? = some (e, .ask c next)) :
    (o.step (.answer n now others)).Sound := by
  rw [step_answer hn]
  have hlt : n < o.errands.length := (List.getElem?_eq_some_iff.1 hn).1
  refine ⟨fun key => ?_, fun n' e' p hp => ?_, fun x hx => ?_, fun earlier x hprefix => ?_⟩
  · rw [recalled_append, complaint_reply, h.recalled key]
    rfl
  · by_cases hsame : n = n'
    · subst hsame
      obtain ⟨rfl, rfl⟩ : e = e' ∧ next (reply o.manager now others c).1 = p := by
        simpa [hlt] using hp
      show Procedure.Course _ (callsOf n (o.log ++ [_])) _
      rw [callsOf_append]
      exact (h.courses n e _ hn).concat _
    · rw [callsOf_append_of_ne hsame]
      exact h.courses n' e' p (by simpa [List.getElem?_set_ne hsame] using hp)
  · rcases List.mem_append.1 hx with hx | hx
    · obtain ⟨p, hp⟩ := h.given x hx
      by_cases hsame : n = x.number
      · subst hsame
        obtain ⟨rfl, -⟩ := Prod.mk.inj (Option.some.inj (hn.symm.trans hp))
        exact ⟨next (reply o.manager now others c).1, by simp [hlt]⟩
      · exact ⟨p, by simpa [List.getElem?_set_ne hsame] using hp⟩
    · obtain rfl := List.mem_singleton.1 hx
      exact ⟨next (reply o.manager now others c).1, by simp [hlt]⟩
  · rcases concat_prefix_concat hprefix with ⟨rfl, rfl⟩ | hprefix
    · refine ⟨⟨next, h.courses n e _ hn⟩, fun key complaint new hnote => ?_⟩
      obtain ⟨rfl, hreply⟩ := Exchange.mk.inj hnote
      rw [← h.recalled key, ← Manager.note_fst]
      exact (eq_of_heq hreply).symm
    · exact h.genuine earlier x hprefix

theorem Sound.step (h : o.Sound) (event : Event) : (o.step event).Sound := by
  cases event with
  | begin e => exact h.begin e
  | answer n now others =>
    cases hn : o.errands[n]? with
    | none => simpa only [Office.step, hn] using h
    | some errand =>
      obtain ⟨e, p⟩ := errand
      cases p with
      | done u => simpa only [Office.step, hn] using h
      | ask c next => exact h.answer hn
  | otherwise queue engine => exact ⟨h.recalled, h.courses, h.given, h.genuine⟩

theorem sound_run (zone : Zone) (staleness : Int) (events : List Event) :
    ((new zone staleness).run events).Sound := by
  induction events using List.reverseRecOn with
  | nil => exact sound_new zone staleness
  | append_singleton events e ih =>
    rw [run_append]
    exact ih.step e

end

/-! ### What is made known -/

/-- Whether what a call remarks about a resource comes from one of these: a reconcile of it that has
just asked for it; that it is forgotten; a pass that has just dropped one of its jobs. -/
inductive Remarks (earlier : List LogEntry) (x : LogEntry) (key : OwnerKey) : Option String → Prop
  | reconcile (found : Option Resource) (herrand : x.errand = .reconcile key)
      (hown : callsOf x.number earlier = [⟨.store (.fetch key), .ok found⟩]) :
      Remarks earlier x key (found.bind fun r => r.spec.complaintText)
  | forget (herrand : x.errand = .forget key) (hown : callsOf x.number earlier = []) :
      Remarks earlier x key none
  | sweep (jobs : List Job) (job : Job) (own : List (Exchange Desk)) (dropped : Bool)
      (herrand : x.errand = .sweep) (hjob : job ∈ jobs) (howner : job.owner = key)
      (hown : callsOf x.number earlier =
        ⟨.manager .snapshot, jobs⟩ :: own ++ [⟨.manager (.delete job.id), dropped⟩]) :
      Remarks earlier x key none

/-- Whether a reconcile that is over has published what it had to. If it has found its resource, it
has remarked on the complaint once, at some place of the log, and what was recalled there decides
whether it has published the complaint. -/
inductive Announced (log : List LogEntry) (n : Nat) (key : OwnerKey) : Prop
  | failed (e : Fault) (hcalls : callsOf n log = [⟨.store (.fetch key), .error e⟩])
  | missing (hcalls : callsOf n log = [⟨.store (.fetch key), .ok none⟩,
      ⟨.manager (.note key none), false⟩, ⟨.startSweep, ()⟩])
  | found (r : Resource) (new : Bool) (earlier later : List LogEntry)
      (hlog : log = earlier ++
        ⟨n, .reconcile key, ⟨.manager (.note key r.spec.complaintText), new⟩⟩ :: later)
      (hown : callsOf n earlier = [⟨.store (.fetch key), .ok (some r)⟩])
      (hpublished : publishedBy n log =
        if r.spec.complaints ≠ [] ∧ recalled key earlier ≠ some r.spec.wording
          then [Reconcile.invalidSpec r r.spec.wording] else [])

/-- Whether the log of an office tells which complaints were made known. -/
structure Told (o : Office) : Prop where
  remarks : ∀ earlier x key complaint, earlier ++ [x] <+: o.log →
    x.remark? key = some complaint → Remarks earlier x key complaint
  reconciled : ∀ n key, o.errands[n]? = some (.reconcile key, .done ()) → Announced o.log n key
  forgotten : ∀ n key, o.errands[n]? = some (.forget key, .done ()) → ∃ count : Nat,
    callsOf n o.log = [⟨.manager (.dropComplaint key), ()⟩, ⟨.manager (.deleteOwnedBy key), count⟩]
  swept : ∀ n, o.errands[n]? = some (.sweep, .done ()) →
    ∃ (jobs : List Job) (rest : List (Exchange Desk)),
      callsOf n o.log = ⟨.manager .snapshot, jobs⟩ :: rest ∧
        ∀ (own : List (Exchange Desk)) id (dropped : Bool) (after : List (Exchange Desk)),
          rest = own ++ ⟨.manager (.delete id), dropped⟩ :: after → ∃ job ∈ jobs, job.id = id ∧
            ∃ later, after = ⟨.manager (.dropComplaint job.owner), ()⟩ :: later
  /-- Every errand is over when it was answered often enough. -/
  ends : ∀ n e p (answers : Nat → Instant × Desk.Replies), o.errands[n]? = some (e, p) → ∃ k,
    (o.run ((List.range k).map fun i => .answer n (answers i).1 (answers i).2)).errands[n]? =
      some (e, .done ())

theorem Genuine.remarks {earlier : List LogEntry} {x : LogEntry} (h : Genuine earlier x)
    {key : OwnerKey} {complaint : Option String} (hremark : x.remark? key = some complaint) :
    Remarks earlier x key complaint := by
  obtain ⟨⟨next, hcourse⟩, -⟩ := h
  obtain ⟨n, errand, call, reply⟩ := x
  replace hremark : call.remark? key = some complaint := hremark
  cases errand with
  | reconcile k =>
    rcases Procedure.Course.of_ask hcourse with ⟨-, hask⟩ | ⟨found, ys, hcalls, hfound⟩
    · cases hask
      cases hremark
    match found with
    | .error e => cases hfound.of_done.2
    | .ok none =>
      rcases Procedure.Course.of_ask hfound with ⟨rfl, hask⟩ | ⟨_, _, rfl, hnoted⟩
      · cases hask
        obtain ⟨rfl, rfl⟩ : k = key ∧ none = complaint := by
          simpa [DeskCall.remark?] using hremark
        exact .reconcile none rfl hcalls
      rcases Procedure.Course.of_ask hnoted with ⟨-, hask⟩ | ⟨_, _, -, hstarted⟩
      · cases hask
        cases hremark
      · cases hstarted.of_done.2
    | .ok (some r) =>
      obtain ⟨rest, heq, hmute⟩ := Reconcile.task_settleResource k r
      replace hfound : Procedure.Course (World.task (Reconcile.settleResource k r)) ys _ := hfound
      rw [heq] at hfound
      rcases hfound.of_ask with ⟨rfl, hask⟩ | ⟨new, _, rfl, hnoted⟩
      · cases hask
        obtain ⟨rfl, rfl⟩ : k = key ∧ r.spec.complaintText = complaint := by
          simpa [DeskCall.remark?] using hremark
        exact .reconcile (some r) rfl hcalls
      · have hnone := ((Reconcile.asks_announce hmute r new key).course hnoted).2.1
        exact absurd (hnone.symm.trans hremark) (by simp)
  | forget k =>
    rcases Procedure.Course.of_ask hcourse with ⟨hnone, hask⟩ | ⟨_, _, -, hdropped⟩
    · cases hask
      obtain ⟨rfl, rfl⟩ : k = key ∧ none = complaint := by
        simpa [DeskCall.remark?] using hremark
      exact .forget rfl hnone
    rcases Procedure.Course.of_ask hdropped with ⟨-, hask⟩ | ⟨_, _, -, hforgotten⟩
    · cases hask
      cases hremark
    · cases hforgotten.of_done.2
  | sweep =>
    obtain ⟨first, heq, hexpires⟩ := task_sweep_eq
    replace hcourse : Procedure.Course (World.task sweep) _ _ := hcourse
    rw [heq] at hcourse
    rcases hcourse.of_ask with ⟨-, hask⟩ | ⟨jobs, ys, hcalls, hcopied⟩
    · cases hask
      cases hremark
    obtain ⟨pending, ⟨pending', hcall, -⟩, hpending⟩ := (hexpires jobs).course hcopied
    cases hcall with
    | delete hjob => cases hremark
    | other hsparing => exact absurd ((hsparing.remark? key).symm.trans hremark) (by simp)
    | drop job =>
      obtain ⟨howner, rfl⟩ : job.owner = key ∧ none = complaint := by
        simpa [DeskCall.remark?] using hremark
      obtain ⟨-, hnone⟩ | ⟨hjob, own, dropped, rfl⟩ := hpending job rfl
      · cases hnone
      · exact .sweep jobs job own dropped rfl hjob howner hcalls

/-! ### Errands that are over -/

/-- What is published once the complaint about a resource was remarked on. -/
theorem published_announce {r : Resource} {rest : Procedure Desk Unit}
    (h : rest.Asks DeskCall.Mute fun _ => True) {new : Bool} {ys : List (Exchange Desk)}
    (hcourse : Procedure.Course (Reconcile.announce r rest new) ys (.done ())) :
    ys.filterMap Exchange.published? =
      if new = true ∧ r.spec.complaints ≠ [] then [Reconcile.invalidSpec r r.spec.wording]
      else [] := by
  have hsilent : ∀ zs, Procedure.Course rest zs (.done ()) →
      zs.filterMap Exchange.published? = [] := by
    intro zs hzs
    rw [List.filterMap_eq_nil_iff]
    intro x hx
    have hmute := (h.course hzs).1 x hx
    unfold Exchange.published?
    split
    · rename_i hcall
      rw [hcall] at hmute
      exact hmute.elim
    · rfl
  unfold Reconcile.announce at hcourse
  rw [Spec.complaintText_eq] at hcourse
  by_cases hvalid : r.spec.complaints = []
  · rw [if_pos hvalid] at hcourse
    rw [if_neg fun h => h.2 hvalid]
    exact hsilent ys (by cases new <;> exact hcourse)
  · rw [if_neg hvalid] at hcourse
    cases new with
    | false =>
      rw [if_neg fun h => absurd h.1 (by decide)]
      exact hsilent ys hcourse
    | true =>
      obtain ⟨_, zs, rfl, hpublished⟩ := hcourse.of_ask_done
      rw [if_pos ⟨rfl, hvalid⟩]
      exact congrArg (Reconcile.invalidSpec r _ :: ·) (hsilent zs hpublished)

section

variable {o : Office} {n : Nat} {key : OwnerKey}

/-- Where a call for an errand stands in the log of a sound office. -/
theorem Sound.exists_of_callsOf (h : o.Sound) {e : Errand} {p : Procedure Desk Unit}
    (hn : o.errands[n]? = some (e, p)) {xs ys : List (Exchange Desk)} {y : Exchange Desk}
    (hcalls : callsOf n o.log = xs ++ y :: ys) : ∃ earlier later,
      o.log = earlier ++ ⟨n, e, y⟩ :: later ∧ callsOf n earlier = xs ∧
        Genuine earlier ⟨n, e, y⟩ := by
  obtain ⟨earlier, x, later, hlog, rfl, rfl, hxs⟩ := CronScale.exists_of_callsOf hcalls
  obtain ⟨p', hp'⟩ := h.given x (by simp [hlog])
  obtain ⟨rfl, -⟩ := Prod.mk.inj (Option.some.inj (hn.symm.trans hp'))
  exact ⟨earlier, later, hlog, hxs, h.genuine earlier x ⟨later, by simp [hlog]⟩⟩

theorem Sound.reconciled (h : o.Sound) (hn : o.errands[n]? = some (.reconcile key, .done ())) :
    Announced o.log n key := by
  obtain ⟨found, ys, hcalls, hfound⟩ := Procedure.Course.of_ask_done (h.courses n _ _ hn)
  match found with
  | .error e =>
    obtain ⟨rfl, -⟩ := hfound.of_done
    exact .failed e hcalls
  | .ok none =>
    obtain ⟨new, ys, rfl, hnoted⟩ := Procedure.Course.of_ask_done hfound
    obtain ⟨_, _, rfl, hstarted⟩ := Procedure.Course.of_ask_done hnoted
    obtain ⟨rfl, -⟩ := hstarted.of_done
    obtain ⟨earlier, later, -, -, hgenuine⟩ :=
      h.exists_of_callsOf hn (show _ = [_] ++ _ :: _ from hcalls)
    obtain rfl := hgenuine.noted key none new rfl
    exact .missing hcalls
  | .ok (some r) =>
    obtain ⟨rest, heq, hmute⟩ := Reconcile.task_settleResource key r
    replace hfound : Procedure.Course (World.task (Reconcile.settleResource key r)) ys _ := hfound
    rw [heq] at hfound
    obtain ⟨(new : Bool), zs, rfl, hnoted⟩ := hfound.of_ask_done
    obtain ⟨earlier, later, hlog, hown, hgenuine⟩ :=
      h.exists_of_callsOf hn (show _ = [_] ++ _ :: _ from hcalls)
    have hnew := hgenuine.noted key r.spec.complaintText new rfl
    refine .found r new earlier later hlog hown ?_
    rw [publishedBy, hcalls]
    refine (published_announce hmute hnoted).trans (if_congr ?_ rfl rfl)
    rw [hnew, Spec.complaintText_eq]
    by_cases hvalid : r.spec.complaints = []
    · simp [hvalid]
    · simp [hvalid]

theorem Sound.forgotten (h : o.Sound) (hn : o.errands[n]? = some (.forget key, .done ())) :
    ∃ count : Nat, callsOf n o.log =
      [⟨.manager (.dropComplaint key), ()⟩, ⟨.manager (.deleteOwnedBy key), count⟩] := by
  obtain ⟨_, _, hcalls, hdropped⟩ := Procedure.Course.of_ask_done (h.courses n _ _ hn)
  obtain ⟨count, _, rfl, hdeleted⟩ := Procedure.Course.of_ask_done hdropped
  obtain ⟨rfl, -⟩ := hdeleted.of_done
  exact ⟨count, hcalls⟩

theorem Sound.swept (h : o.Sound) (hn : o.errands[n]? = some (.sweep, .done ())) :
    ∃ (jobs : List Job) (rest : List (Exchange Desk)),
      callsOf n o.log = ⟨.manager .snapshot, jobs⟩ :: rest ∧
        ∀ (own : List (Exchange Desk)) id (dropped : Bool) (after : List (Exchange Desk)),
          rest = own ++ ⟨.manager (.delete id), dropped⟩ :: after → ∃ job ∈ jobs, job.id = id ∧
            ∃ later, after = ⟨.manager (.dropComplaint job.owner), ()⟩ :: later := by
  obtain ⟨first, heq, hexpires⟩ := task_sweep_eq
  have hcourse : Procedure.Course (World.task sweep) _ _ := h.courses n _ _ hn
  rw [heq] at hcourse
  obtain ⟨jobs, rest, hcalls, hcopied⟩ := hcourse.of_ask_done
  exact ⟨jobs, rest, hcalls, fun _ _ _ _ hrest => (hexpires jobs).followed hcopied hrest⟩

end

theorem exists_over (o : Office) {n : Nat} {e : Errand} {p : Procedure Desk Unit}
    (answers : Nat → Instant × Desk.Replies) (hn : o.errands[n]? = some (e, p)) : ∃ k,
    (o.run ((List.range k).map fun i => .answer n (answers i).1 (answers i).2)).errands[n]? =
      some (e, .done ()) := by
  induction p generalizing o answers with
  | done u => exact ⟨0, hn⟩
  | ask c next ih =>
    have hlt : n < o.errands.length := (List.getElem?_eq_some_iff.1 hn).1
    have hnext : (o.step (.answer n (answers 0).1 (answers 0).2)).errands[n]? =
        some (e, next (reply o.manager (answers 0).1 (answers 0).2 c).1) := by
      rw [step_answer hn]
      simp [hlt]
    obtain ⟨k, hk⟩ := ih _ _ (fun i => answers (i + 1)) hnext
    refine ⟨k + 1, ?_⟩
    rw [List.range_succ_eq_map, List.map_cons, List.map_map]
    exact hk

/-- Reconciles, forgets and passes over any number of resources go on at once. A reconcile that is
over and has found its resource has published an `InvalidSpec` event if the specification was
complained about and the complaint is another one than that remarked on last, as long as it was not
dropped since, and then a single one. What is remarked about a resource comes from its own
reconciles and from its being forgotten, or from a pass that has dropped one of its jobs; and all of
these do remark on it. -/
theorem complaints_told (zone : Zone) (staleness : Int) (events : List Event) :
    ((new zone staleness).run events).Told where
  remarks := fun earlier x _ _ hprefix hremark =>
    ((sound_run zone staleness events).genuine earlier x hprefix).remarks hremark
  reconciled := fun _ _ hn => (sound_run zone staleness events).reconciled hn
  forgotten := fun _ _ hn => (sound_run zone staleness events).forgotten hn
  swept := fun _ hn => (sound_run zone staleness events).swept hn
  ends := fun _ _ _ answers hn => exists_over _ answers hn

/-- Of two reconciles of a resource whose target has no kind, which both fail to write the status,
the first one publishes the complaint. -/
example :
    let flawed : Resource := ⟨{}, ⟨[], ⟨"apps/v1", "", "web"⟩, []⟩, none⟩
    let others : Desk.Replies := fun c =>
      match c with
      | .store (.fetch _) => .ok (some flawed)
      | .store (.patchStatus _ _ _) => .error (.outdated "web")
      | c => c.someReply
    let reconcile : List Event :=
      .begin (.reconcile flawed.key) ::
        [0, 1].flatMap fun n => .replicate 6 (.answer n default others)
    let o := (new Zone.utc 0).run (reconcile ++ reconcile)
    (publishedBy 0 o.log).map (·.2.message) = ["scaleTargetRef kind must not be empty"] ∧
      (publishedBy 1 o.log).length = 0 ∧ (callsOf 1 o.log).length = 5 := by
  decide +kernel

end Office

end CronScale
