import Mathlib.Data.List.Induction
import Mathlib.Order.WellFounded
import CronScale.Manager.Record
import CronScale.Rehearsal.Scaler
/-!
# Outcomes on their way

What is taken from the agenda is fired, one job after another, and every job that is fired is
carried out by itself. Runs take any time, overlap even with other runs of the same job and end in
any order, and meanwhile the agenda changes. What a run has come to is sent to the recorder, which
records one outcome after another in the order in which they arrive.

Firings are numbered. At every moment each of them is being carried out, waits for the recorder or
has been taken by it, and only one of these (`Service.Accounted`); what arrives is the job as it was
fired, with the outcome that its own run has ended with; and unless runs go on for ever, everything
arrives and is recorded to the end (`Service.firings_accounted`).
-/

namespace CronScale

open CronScale.Calendar

/-! ### Answers -/

/-- Answers to all calls of an interface. -/
abbrev Interface.Replies (I : Interface) : Type := (c : I.Call) → I.Reply c

/-- Answers to all calls of the manager's procedures. -/
def DeskCall.someReply : Desk.Replies
  | .store (.fetch _) => .ok none
  | .store (.patchStatus _ _ _) => .ok ()
  | .store (.publish _ _) => ()
  | .manager c => ((Manager.empty default 0).answer default c).1
  | .freshId _ _ => ""
  | .publishCounts _ => ()
  | .startSweep => ()
  | .startReruns _ => ()

namespace Procedure

variable {I : Interface} {α : Type}

/-- What is left of a procedure when its next call, if there is one, is answered. -/
def answered (reply : I.Replies) : Procedure I α → Procedure I α
  | done a => done a
  | ask c next => next (reply c)

/-- Whether a procedure is what is left of another one after an answer. -/
inductive Follows : Procedure I α → Procedure I α → Prop
  | mk {c : I.Call} (next : I.Reply c → Procedure I α) (r : I.Reply c) :
      Follows (next r) (ask c next)

theorem wellFounded_follows : WellFounded (Follows (I := I) (α := α)) := by
  refine ⟨fun p => ?_⟩
  induction p with
  | done a => exact ⟨_, fun q hq => nomatch hq⟩
  | ask c next ih =>
    refine ⟨_, ?_⟩
    rintro _ ⟨_, r⟩
    exact ih r

end Procedure

/-! ### Runs -/

/-- What can happen to an execution. -/
inductive Move where
  | begin (now : Int)
  | settle (now : Int)
  | answer (reply : Scaler.Replies)

/-- A job that was fired, and where its execution stands once that has begun. -/
structure Run where
  job : Job
  state : Option Execution

namespace Run

def moved (s : ExecutionSettings) (r : Run) : Move → Run
  | .begin now =>
    match r.state with
    | none => { r with state := some (r.job.execute s now) }
    | some _ => r
  | .settle now => { r with state := r.state.map (Execution.settle r.job s now) }
  | .answer reply =>
    match r.state with
    | some (.attempting started failures rest) =>
      { r with state := some (.attempting started failures (rest.answered reply)) }
    | _ => r

/-- What a run has come to, if it has ended. -/
def result? (r : Run) : Option (Except Fault String) :=
  match r.state with
  | some (.ended outcome) => some (outcome.map Report.message)
  | _ => none

/-- A run of a job after some moves. -/
def after (s : ExecutionSettings) (job : Job) (moves : List Move) : Run :=
  moves.foldl (moved s) ⟨job, none⟩

theorem after_append (s : ExecutionSettings) (job : Job) (moves : List Move) (m : Move) :
    after s job (moves ++ [m]) = (after s job moves).moved s m := by
  rw [after, List.foldl_append]
  rfl

@[simp] theorem job_moved (s : ExecutionSettings) (r : Run) (m : Move) :
    (r.moved s m).job = r.job := by
  unfold moved
  split
  · split <;> rfl
  · rfl
  · split <;> rfl

@[simp] theorem job_after (s : ExecutionSettings) (job : Job) (moves : List Move) :
    (after s job moves).job = job := by
  induction moves using List.reverseRecOn with
  | nil => rfl
  | append_singleton moves m ih => rw [after_append, job_moved, ih]

end Run

namespace Rehearsal

variable {settings : ExecutionSettings} {now : Int} {s s' : ScriptedScaler}

/-- An execution in a rehearsal as a run. -/
def Work.asRun (w : Work) : Run := ⟨w.job, some w.state⟩

/-- A step of an execution in a rehearsal is a move of a run, or a call that is made. -/
theorem Work.moved_of_step {w w' : Work} (h : w.step settings now s = some (w', s')) :
    w'.asRun = w.asRun ∨ ∃ m, w'.asRun = w.asRun.moved settings m := by
  obtain ⟨task, job, state, held⟩ := w
  unfold Work.step at h
  split at h
  · cases h
  · split at h
    · cases h
      exact .inr ⟨.settle now, rfl⟩
    · cases h
  · cases h
    exact .inr ⟨.settle now, rfl⟩
  · rename_i started failures c next hstate
    obtain rfl : state = _ := hstate
    split at h
    · cases h
      exact .inl rfl
    · split at h
      · rename_i answered due hitch hheld hdue
        cases h
        refine .inr ⟨.answer fun c => (s.answer hitch c).1, rfl⟩
      · cases h

/-- What an execution has come to after any steps, it has come to by moves. -/
theorem Work.moves_of_settle (n : Nat) (w : Work) (s : ScriptedScaler) : ∃ moves : List Move,
    (w.settle settings now n s).1.asRun = moves.foldl (Run.moved settings) w.asRun := by
  induction n generalizing w s with
  | zero => exact ⟨[], rfl⟩
  | succ n ih =>
    unfold Work.settle
    split
    · exact ⟨[], rfl⟩
    · rename_i w' s' hstep
      obtain ⟨moves, hmoves⟩ := ih w' s'
      rcases Work.moved_of_step hstep with hsame | ⟨m, hm⟩
      · exact ⟨moves, hsame ▸ hmoves⟩
      · exact ⟨m :: moves, hmoves.trans (by rw [hm, List.foldl_cons])⟩

theorem Work.result?_asRun {w : Work} {outcome : Except Fault Report}
    (h : w.outcome? = some outcome) : w.asRun.result? = some (outcome.map Report.message) := by
  unfold Work.outcome? at h
  split at h
  · rename_i o hstate
    obtain rfl := Option.some.inj h
    rw [Run.result?, Work.asRun, hstate]
  · cases h

theorem moves_of_rehearseExecution {n : Nat} {now' : Int} {w : Work}
    {outcome : Except Fault Report}
    (h : rehearseExecution settings n now w s = some (outcome, now', s')) : ∃ moves : List Move,
    (moves.foldl (Run.moved settings) w.asRun).result? = some (outcome.map Report.message) := by
  induction n generalizing now w s with
  | zero => cases h
  | succ n ih =>
    obtain ⟨moves, hmoves⟩ := @Work.moves_of_settle settings now Work.stepBound w s
    unfold rehearseExecution at h
    simp only at h
    split at h
    · rename_i o hended
      cases h
      exact ⟨moves, hmoves ▸ Work.result?_asRun hended⟩
    · obtain ⟨later, hlater⟩ := ih h
      refine ⟨moves ++ later, ?_⟩
      rw [List.foldl_append, ← hmoves, hlater]
    · cases h

/-- What the execution of a job comes to in a rehearsal, a run of the job comes to. -/
theorem result?_of_rehearseExecution {n task : Nat} {started now' : Int} {job : Job}
    {outcome : Except Fault Report}
    (h : rehearseExecution settings n now (.begin settings started task job) s =
      some (outcome, now', s')) :
    ∃ moves, (Run.after settings job moves).result? = some (outcome.map Report.message) := by
  obtain ⟨moves, hmoves⟩ := moves_of_rehearseExecution h
  exact ⟨.begin started :: moves, hmoves⟩

end Rehearsal

/-! ### The way from the agenda to the recorder -/

/-- An outcome on its way to the recorder, with the job that was run and the number of its
firing. -/
structure Delivery where
  firing : Nat
  job : Job
  outcome : Except Fault String

/-- The recording of an outcome: what its calls were answered so far, and what is left of it. -/
structure Recording where
  delivery : Delivery
  answers : List Desk.Replies
  rest : Procedure Desk Unit

/-- Whether a recording is that of its outcome, as it is after its answers. -/
def Recording.Genuine (settings : ManagerSettings) (r : Recording) : Prop :=
  r.rest = r.answers.foldl (fun p reply => p.answered reply)
    (record settings r.delivery.job r.delivery.outcome)

/-- A manager with what it has fired and what has come of that. -/
structure Service where
  manager : Manager
  /-- The jobs that were taken from the agenda and are still to be fired. -/
  due : List Job := []
  /-- The runs under way, by the numbers of their firings. -/
  running : Table Nat Run := Table.empty
  /-- The outcomes that wait for the recorder, in the order of their arrival. -/
  waiting : List Delivery := []
  /-- The recording under way. -/
  recorder : Option Recording := none
  /-- The recordings that are over. -/
  recorded : List Recording := []
  /-- The jobs that were fired so far. -/
  fired : List Job := []
  /-- The engines that were gone through so far, as they were then, and when that was. -/
  dispatches : List (Engine Job × Int) := []
  /-- What has happened to the runs so far, each with the number of its firing. -/
  moves : List (Nat × Move) := []

namespace Service

/-- What can happen to a service. -/
inductive Event where
  /-- The manager takes a step of its own, such as to put a job in, replace it or take it out. -/
  | manage (now : Instant) (c : ManagerCall)
  | dispatch (now : Int)
  | fire
  | move (firing : Nat) (m : Move)
  | deliver (firing : Nat)
  | take
  | reply (reply : Desk.Replies)
  | close

/-- Whether an event brings outcomes on their way. -/
def Event.brings : Event → Bool
  | deliver _ | take | reply _ | close => true
  | manage _ _ | dispatch _ | fire | move _ _ => false

section

variable (settings : ManagerSettings) (s : Service)

/-- The outcomes that the recorder has taken, in their order. -/
def handled : List Delivery := (s.recorded ++ s.recorder.toList).map Recording.delivery

/-- All outcomes that have arrived, in their order. -/
def arrived : List Delivery := s.handled ++ s.waiting

/-- What has happened to the run with a number. -/
def movesOf (n : Nat) : List Move := (s.moves.filter fun x => x.1 = n).map Prod.snd

def dispatched (now : Int) : Service :=
  { s with
    manager := { s.manager with engine := (s.manager.engine.dispatch now).2 }
    due := (s.manager.engine.dispatch now).1
    dispatches := s.dispatches ++ [(s.manager.engine, now)] }

def launched (job : Job) (due : List Job) : Service :=
  { s with
    due := due
    running := s.running.insert s.fired.length ⟨job, none⟩
    fired := s.fired ++ [job] }

def moved (n : Nat) (r : Run) (m : Move) : Service :=
  { s with
    running := s.running.insert n (r.moved settings.execution m)
    moves := s.moves ++ [(n, m)] }

def delivered (n : Nat) (job : Job) (outcome : Except Fault String) : Service :=
  { s with
    running := s.running.erase n
    waiting := s.waiting ++ [⟨n, job, outcome⟩] }

def taken (d : Delivery) (waiting : List Delivery) : Service :=
  { s with
    waiting := waiting
    recorder := some ⟨d, [], record settings d.job d.outcome⟩ }

def replied (r : Recording) (reply : Desk.Replies) : Service :=
  { s with
    recorder := some ⟨r.delivery, r.answers ++ [reply], r.rest.answered reply⟩ }

def closed (r : Recording) : Service :=
  { s with
    recorder := none
    recorded := s.recorded ++ [r] }

/-- What an event makes of a service, if it can happen. The agenda is gone through again only when
everything that was taken from it before has been fired, and the recorder takes an outcome only when
it has recorded the one before. -/
def step? : Event → Option Service
  | .manage now c => some { s with manager := (s.manager.answer now c).2 }
  | .dispatch now =>
    match s.due with
    | [] => some (s.dispatched now)
    | _ :: _ => none
  | .fire =>
    match s.due with
    | [] => none
    | job :: due => some (s.launched job due)
  | .move n m =>
    match s.running.get? n with
    | none => none
    | some r => some (s.moved settings n r m)
  | .deliver n =>
    match s.running.get? n with
    | none => none
    | some r => r.result?.map (s.delivered n r.job)
  | .take =>
    match s.recorder, s.waiting with
    | none, d :: waiting => some (s.taken settings d waiting)
    | _, _ => none
  | .reply reply =>
    match s.recorder with
    | none => none
    | some r =>
      match r.rest with
      | .done _ => none
      | .ask _ _ => some (s.replied r reply)
  | .close =>
    match s.recorder with
    | none => none
    | some r =>
      match r.rest with
      | .done _ => some (s.closed r)
      | .ask _ _ => none

/-- A service after some events; those that cannot happen are passed over. -/
def run (events : List Event) : Service :=
  events.foldl (fun s e => (s.step? settings e).getD s) s

end

/-- The steps of a service, each with when it can be taken. -/
inductive Step (settings : ManagerSettings) (s : Service) : Event → Service → Prop
  | manage (now : Instant) (c : ManagerCall) :
      Step settings s (.manage now c) { s with manager := (s.manager.answer now c).2 }
  | dispatch (now : Int) (hdue : s.due = []) : Step settings s (.dispatch now) (s.dispatched now)
  | fire {job : Job} {due : List Job} (hdue : s.due = job :: due) :
      Step settings s .fire (s.launched job due)
  | move {n : Nat} {r : Run} (m : Move) (hrun : s.running.get? n = some r) :
      Step settings s (.move n m) (s.moved settings n r m)
  | deliver {n : Nat} {r : Run} {outcome : Except Fault String} (hrun : s.running.get? n = some r)
      (hresult : r.result? = some outcome) :
      Step settings s (.deliver n) (s.delivered n r.job outcome)
  | take {d : Delivery} {waiting : List Delivery} (hfree : s.recorder = none)
      (hwaiting : s.waiting = d :: waiting) : Step settings s .take (s.taken settings d waiting)
  | reply {r : Recording} {c : DeskCall} {next : c.Reply → Procedure Desk Unit}
      (reply : Desk.Replies) (hrecorder : s.recorder = some r) (hrest : r.rest = .ask c next) :
      Step settings s (.reply reply) (s.replied r reply)
  | close {r : Recording} (hrecorder : s.recorder = some r) (hrest : r.rest = .done ()) :
      Step settings s .close (s.closed r)

section

variable {settings : ManagerSettings} {s t : Service} {e : Event}

theorem step_of_step? (h : s.step? settings e = some t) : Step settings s e t := by
  cases e with
  | manage now c =>
    obtain rfl := Option.some.inj h
    exact .manage now c
  | dispatch now =>
    simp only [step?] at h
    split at h
    · obtain rfl := Option.some.inj h
      exact .dispatch now ‹_›
    · cases h
  | fire =>
    simp only [step?] at h
    split at h
    · cases h
    · obtain rfl := Option.some.inj h
      exact .fire ‹_›
  | move n m =>
    simp only [step?] at h
    split at h
    · cases h
    · obtain rfl := Option.some.inj h
      exact .move m ‹_›
  | deliver n =>
    simp only [step?] at h
    split at h
    · cases h
    · obtain ⟨outcome, hresult, rfl⟩ := Option.map_eq_some_iff.1 h
      exact .deliver ‹_› hresult
  | take =>
    simp only [step?] at h
    split at h
    · obtain rfl := Option.some.inj h
      exact .take ‹_› ‹_›
    · cases h
  | reply reply =>
    simp only [step?] at h
    split at h
    · cases h
    · split at h
      · cases h
      · obtain rfl := Option.some.inj h
        exact .reply reply ‹_› ‹_›
  | close =>
    simp only [step?] at h
    split at h
    · cases h
    · split at h
      · obtain rfl := Option.some.inj h
        exact .close ‹_› ‹_›
      · cases h

theorem Step.step? (h : Step settings s e t) : s.step? settings e = some t := by
  cases h with
  | manage now c => rfl
  | dispatch now hdue => simp only [Service.step?, hdue]
  | fire hdue => simp only [Service.step?, hdue]
  | move m hrun => simp only [Service.step?, hrun]
  | deliver hrun hresult => simp only [Service.step?, hrun, hresult, Option.map_some]
  | take hfree hwaiting => simp only [Service.step?, hfree, hwaiting]
  | reply reply hrecorder hrest => simp only [Service.step?, hrecorder, hrest]
  | close hrecorder hrest => simp only [Service.step?, hrecorder, hrest]

theorem step?_eq_some : s.step? settings e = some t ↔ Step settings s e t :=
  ⟨step_of_step?, Step.step?⟩

/-- What every step keeps holds after all events. -/
theorem run_induction {test : Service → Prop} (hs : test s)
    (hstep : ∀ s e t, test s → Step settings s e t → test t) (events : List Event) :
    test (s.run settings events) := by
  induction events generalizing s with
  | nil => exact hs
  | cons e events ih =>
    refine ih (s := (s.step? settings e).getD s) ?_
    cases ht : s.step? settings e with
    | none => exact hs
    | some t => exact hstep s e t hs (step?_eq_some.1 ht)

end

/-! ### Every firing is accounted for -/

/-- Whether a service accounts for everything that it has fired. -/
structure Accounted (settings : ManagerSettings) (s : Service) : Prop where
  /-- What was fired and is still to be fired is what each dispatch has taken from the agenda as
  it was then. -/
  taken : s.fired ++ s.due = s.dispatches.flatMap fun d => (d.1.dispatch d.2).1
  /-- Each firing has arrived or is being carried out, but not both, and once. -/
  firings : (s.arrived.map Delivery.firing ++ s.running.keys).Perm (List.range s.fired.length)
  /-- What is being carried out is the job that was fired, as it is after all that has happened to
  the run, and nothing else. -/
  running : ∀ n r, s.running.get? n = some r → ∃ job, s.fired[n]? = some job ∧
    r = Run.after settings.execution job (s.movesOf n)
  /-- What arrives is the job that was fired, with the outcome of its own run. -/
  arrived : ∀ d ∈ s.arrived, s.fired[d.firing]? = some d.job ∧
    (Run.after settings.execution d.job (s.movesOf d.firing)).result? = some d.outcome
  /-- Nothing happens to a run before it was fired. -/
  moves : ∀ x ∈ s.moves, x.1 < s.fired.length
  /-- What is taken by the recorder is recorded. -/
  genuine : ∀ r ∈ s.recorded ++ s.recorder.toList, r.Genuine settings
  /-- A recording is not over before it is complete. -/
  complete : ∀ r ∈ s.recorded, r.rest = .done ()

variable {settings : ManagerSettings} {s t : Service} {e : Event}

theorem accounted_new (settings : ManagerSettings) (m : Manager) :
    Accounted settings { manager := m } where
  taken := rfl
  firings := .nil
  running := fun n r h => absurd h (by simp)
  arrived := fun d h => absurd h List.not_mem_nil
  moves := fun x h => absurd h List.not_mem_nil
  genuine := fun r h => absurd h List.not_mem_nil
  complete := fun r h => absurd h List.not_mem_nil

theorem movesOf_append (x : Nat × Move) (n : Nat) :
    { s with moves := s.moves ++ [x] }.movesOf n =
      if x.1 = n then s.movesOf n ++ [x.2] else s.movesOf n := by
  unfold movesOf
  split
  · rw [List.filter_append, List.filter_cons_of_pos (by simpa), List.map_append]
    rfl
  · rw [List.filter_append, List.filter_cons_of_neg (by simpa), List.filter_nil, List.append_nil]

theorem fired_launched {job job' : Job} {n : Nat} (h : s.fired[n]? = some job') (due : List Job) :
    (s.launched job due).fired[n]? = some job' :=
  (List.getElem?_append_left (List.getElem?_eq_some_iff.1 h).1).trans h

theorem handled_taken (hfree : s.recorder = none) (d : Delivery) (waiting : List Delivery) :
    (s.taken settings d waiting).handled = s.handled ++ [d] := by
  simp only [handled, taken, hfree, Option.toList_none, List.append_nil, Option.toList_some,
    List.map_append, List.map_cons, List.map_nil]

theorem arrived_taken {d : Delivery} {waiting : List Delivery} (hfree : s.recorder = none)
    (hwaiting : s.waiting = d :: waiting) : (s.taken settings d waiting).arrived = s.arrived := by
  rw [Service.arrived, Service.arrived, handled_taken hfree, hwaiting, List.append_assoc]
  rfl

theorem handled_replied {r : Recording} (hrecorder : s.recorder = some r) (reply : Desk.Replies) :
    (s.replied r reply).handled = s.handled := by
  simp only [handled, replied, hrecorder, Option.toList_some, List.map_append, List.map_cons,
    List.map_nil]

theorem arrived_replied {r : Recording} (hrecorder : s.recorder = some r) (reply : Desk.Replies) :
    (s.replied r reply).arrived = s.arrived :=
  congrArg (· ++ s.waiting) (handled_replied hrecorder reply)

theorem handled_closed {r : Recording} (hrecorder : s.recorder = some r) :
    (s.closed r).handled = s.handled := by
  simp only [handled, closed, hrecorder, Option.toList_none, List.append_nil, Option.toList_some]

theorem arrived_closed {r : Recording} (hrecorder : s.recorder = some r) :
    (s.closed r).arrived = s.arrived :=
  congrArg (· ++ s.waiting) (handled_closed hrecorder)

namespace Accounted

theorem lt_of_running (h : s.Accounted settings) {n : Nat} (hn : n ∈ s.running.keys) :
    n < s.fired.length :=
  List.mem_range.1 (h.firings.subset (List.mem_append_right _ hn))

/-- What has arrived is no longer being carried out. -/
theorem ne_of_running (h : s.Accounted settings) {d : Delivery} (hd : d ∈ s.arrived) {n : Nat}
    (hn : n ∈ s.running.keys) : d.firing ≠ n := by
  have hnodup := (h.firings.nodup_iff).2 List.nodup_range
  exact (List.nodup_append.1 hnodup).2.2 d.firing (List.mem_map_of_mem hd) n hn

/-- A firing that is still to come is not being carried out, and nothing has happened to it. -/
theorem fresh (h : s.Accounted settings) :
    s.fired.length ∉ s.running.keys ∧ s.movesOf s.fired.length = [] := by
  refine ⟨fun hmem => Nat.lt_irrefl _ (h.lt_of_running hmem), ?_⟩
  rw [movesOf, List.map_eq_nil_iff, List.filter_eq_nil_iff]
  intro x hx heq
  exact Nat.ne_of_lt (h.moves x hx) (of_decide_eq_true heq)

theorem dispatched (h : s.Accounted settings) (hdue : s.due = []) (now : Int) :
    (s.dispatched now).Accounted settings where
  taken := by
    have htaken := h.taken
    rw [hdue, List.append_nil] at htaken
    show s.fired ++ (s.manager.engine.dispatch now).1 = _
    rw [Service.dispatched, List.flatMap_append, ← htaken, List.flatMap_singleton]
  firings := h.firings
  running := h.running
  arrived := h.arrived
  moves := h.moves
  genuine := h.genuine
  complete := h.complete

theorem launched (h : s.Accounted settings) {job : Job} {due : List Job}
    (hdue : s.due = job :: due) : (s.launched job due).Accounted settings where
  taken := by
    have htaken := h.taken
    rw [hdue] at htaken
    exact (List.append_assoc s.fired [job] due).trans htaken
  firings := by
    show (s.arrived.map Delivery.firing ++ (s.running.insert _ _).keys).Perm
      (List.range (s.fired ++ [job]).length)
    rw [Table.keys_insert_of_not_mem h.fresh.1, ← List.append_assoc, List.length_append,
      List.length_singleton, List.range_succ]
    exact h.firings.append_right _
  running := by
    intro n r hr
    simp only [Service.launched, Table.get?_insert] at hr ⊢
    split at hr
    · obtain rfl := Option.some.inj hr
      subst n
      refine ⟨job, List.getElem?_concat_length, ?_⟩
      show _ = Run.after settings.execution job (s.movesOf s.fired.length)
      rw [h.fresh.2]
      rfl
    · obtain ⟨job', hjob', hrun⟩ := h.running n r hr
      exact ⟨job', fired_launched hjob' due, hrun⟩
  arrived := fun d hd => ⟨fired_launched (h.arrived d hd).1 due, (h.arrived d hd).2⟩
  moves := by
    intro x hx
    rw [Service.launched, List.length_append]
    exact Nat.lt_add_right _ (h.moves x hx)
  genuine := h.genuine
  complete := h.complete

theorem moved (h : s.Accounted settings) {n : Nat} {r : Run} (hrun : s.running.get? n = some r)
    (m : Move) : (s.moved settings n r m).Accounted settings := by
  have hkey : n ∈ s.running.keys := Table.mem_keys.2 ⟨r, hrun⟩
  have hother : ∀ k, k ≠ n → (s.moved settings n r m).movesOf k = s.movesOf k := fun k hk =>
    (movesOf_append (s := s) (n, m) k).trans (if_neg hk.symm)
  exact {
    taken := h.taken
    firings := by
      show (s.arrived.map Delivery.firing ++ (s.running.insert _ _).keys).Perm _
      rw [Table.keys_insert_of_mem hkey]
      exact h.firings
    running := by
      intro k r' hr'
      simp only [Service.moved, Table.get?_insert] at hr'
      split at hr'
      · obtain rfl := Option.some.inj hr'
        subst k
        obtain ⟨job, hjob, hr⟩ := h.running n r hrun
        refine ⟨job, hjob, ?_⟩
        have hmoves : (s.moved settings n r m).movesOf n = s.movesOf n ++ [m] :=
          (movesOf_append (s := s) (n, m) n).trans (if_pos rfl)
        rw [hmoves, Run.after_append, ← hr]
      · rw [hother k ‹_›]
        exact h.running k r' hr'
    arrived := by
      intro d hd
      rw [hother d.firing (h.ne_of_running hd hkey)]
      exact h.arrived d hd
    moves := by
      intro x hx
      rcases List.mem_append.1 hx with hx | hx
      · exact h.moves x hx
      · rw [List.mem_singleton.1 hx]
        exact h.lt_of_running hkey
    genuine := h.genuine
    complete := h.complete }

theorem delivered (h : s.Accounted settings) {n : Nat} {r : Run} {outcome : Except Fault String}
    (hrun : s.running.get? n = some r) (hresult : r.result? = some outcome) :
    (s.delivered n r.job outcome).Accounted settings := by
  have hkey : n ∈ s.running.keys := Table.mem_keys.2 ⟨r, hrun⟩
  have harrived : (s.delivered n r.job outcome).arrived = s.arrived ++ [⟨n, r.job, outcome⟩] :=
    (List.append_assoc s.handled s.waiting _).symm
  exact {
    taken := h.taken
    firings := by
      have herase := (List.perm_cons_erase hkey).append_left (s.arrived.map Delivery.firing)
      rw [harrived, Service.delivered, Table.keys_erase, List.map_append, List.append_assoc]
      exact herase.symm.trans h.firings
    running := by
      intro k r' hr'
      simp only [Service.delivered, Table.get?_erase] at hr'
      split at hr'
      · cases hr'
      · exact h.running k r' hr'
    arrived := by
      intro d hd
      rw [harrived] at hd
      rcases List.mem_append.1 hd with hd | hd
      · exact h.arrived d hd
      · obtain rfl := List.mem_singleton.1 hd
        obtain ⟨job, hjob, hr⟩ := h.running n r hrun
        have hsame : r.job = job := by rw [hr, Run.job_after]
        refine ⟨hsame ▸ hjob, ?_⟩
        show (Run.after settings.execution r.job (s.movesOf n)).result? = some outcome
        rw [hsame, ← hr, hresult]
    moves := h.moves
    genuine := h.genuine
    complete := h.complete }

/-- What the recorder does changes nothing about what has arrived. -/
theorem recorder (h : s.Accounted settings) {waiting : List Delivery} {recorder : Option Recording}
    {recorded : List Recording}
    (harrived : { s with waiting, recorder, recorded }.arrived = s.arrived)
    (hgenuine : ∀ r ∈ recorded ++ recorder.toList, r.Genuine settings)
    (hcomplete : ∀ r ∈ recorded, r.rest = .done ()) :
    Accounted settings { s with waiting, recorder, recorded } where
  taken := h.taken
  firings := harrived ▸ h.firings
  running := h.running
  arrived := harrived ▸ h.arrived
  moves := h.moves
  genuine := hgenuine
  complete := hcomplete

theorem step (h : s.Accounted settings) (hstep : Step settings s e t) : t.Accounted settings := by
  have hgenuine := List.forall_mem_append.1 h.genuine
  cases hstep with
  | manage now c => exact ⟨h.taken, h.firings, h.running, h.arrived, h.moves, h.genuine, h.complete⟩
  | dispatch now hdue => exact h.dispatched hdue now
  | fire hdue => exact h.launched hdue
  | move m hrun => exact h.moved hrun m
  | deliver hrun hresult => exact h.delivered hrun hresult
  | take hfree hwaiting =>
    refine h.recorder (arrived_taken hfree hwaiting) ?_ h.complete
    refine List.forall_mem_append.2 ⟨hgenuine.1, fun r hr => ?_⟩
    rw [List.mem_singleton.1 hr]
    rfl
  | @reply r c next reply hrecorder hrest =>
    refine h.recorder (arrived_replied hrecorder reply) ?_ h.complete
    refine List.forall_mem_append.2 ⟨hgenuine.1, fun r' hr' => ?_⟩
    rw [hrecorder] at hgenuine
    rw [List.mem_singleton.1 hr', Recording.Genuine, List.foldl_append,
      ← hgenuine.2 r (List.mem_singleton_self r)]
    rfl
  | @close r hrecorder hrest =>
    rw [hrecorder] at hgenuine
    refine h.recorder (arrived_closed hrecorder) ?_ ?_
    · rw [Option.toList_none, List.append_nil]
      exact List.forall_mem_append.2 hgenuine
    · refine List.forall_mem_append.2 ⟨h.complete, fun r' hr' => ?_⟩
      rwa [List.mem_singleton.1 hr']

end Accounted

/-- Whether what one service has fired, what has arrived there and what its recorder has taken is
still so in another one, in the same order. -/
structure Retains (s t : Service) : Prop where
  fired : s.fired <+: t.fired
  handled : s.handled <+: t.handled
  arrived : s.arrived <+: t.arrived

theorem Retains.refl (s : Service) : s.Retains s :=
  ⟨List.prefix_rfl, List.prefix_rfl, List.prefix_rfl⟩

theorem Retains.trans {u : Service} (h : s.Retains t) (h' : t.Retains u) : s.Retains u :=
  ⟨h.fired.trans h'.fired, h.handled.trans h'.handled, h.arrived.trans h'.arrived⟩

theorem retains_of_step (hstep : Step settings s e t) : s.Retains t := by
  cases hstep with
  | manage now c => exact ⟨List.prefix_rfl, List.prefix_rfl, List.prefix_rfl⟩
  | dispatch now hdue => exact ⟨List.prefix_rfl, List.prefix_rfl, List.prefix_rfl⟩
  | fire hdue => exact ⟨List.prefix_append _ _, List.prefix_rfl, List.prefix_rfl⟩
  | move m hrun => exact ⟨List.prefix_rfl, List.prefix_rfl, List.prefix_rfl⟩
  | deliver hrun hresult =>
    refine ⟨List.prefix_rfl, List.prefix_rfl, ?_⟩
    exact (List.prefix_append_right_inj s.handled).2 (List.prefix_append s.waiting _)
  | take hfree hwaiting =>
    exact ⟨List.prefix_rfl, handled_taken hfree _ _ ▸ List.prefix_append _ _,
      arrived_taken hfree hwaiting ▸ List.prefix_rfl⟩
  | reply reply hrecorder hrest =>
    exact ⟨List.prefix_rfl, handled_replied hrecorder reply ▸ List.prefix_rfl,
      arrived_replied hrecorder reply ▸ List.prefix_rfl⟩
  | close hrecorder hrest =>
    exact ⟨List.prefix_rfl, handled_closed hrecorder ▸ List.prefix_rfl,
      arrived_closed hrecorder ▸ List.prefix_rfl⟩

/-! ### Everything arrives and is recorded -/

/-- A step that brings an outcome on its way. -/
def Brings (settings : ManagerSettings) (s t : Service) : Prop :=
  ∃ e : Event, e.brings = true ∧ s.step? settings e = some t

/-- What is left of the recording under way. -/
def left (s : Service) : Procedure Desk Unit := (s.recorder.map Recording.rest).getD (.done ())

/-- How much there is still to bring on its way: first the runs under way, then what waits for the
recorder, then what is left of the recording under way. -/
def load (s : Service) : Nat × Nat × Procedure Desk Unit × Nat :=
  (s.running.size, s.waiting.length, s.left, s.recorder.toList.length)

/-- Every step that brings an outcome on its way makes what is still to be done less. -/
theorem wellFounded_brings (settings : ManagerSettings) :
    WellFounded fun t s => Brings settings s t := by
  refine Subrelation.wf ?_ (InvImage.wf load (Nat.lt_wfRel.wf.prod_lex (Nat.lt_wfRel.wf.prod_lex
    (Procedure.wellFounded_follows.prod_lex Nat.lt_wfRel.wf))))
  rintro t s ⟨e, hbrings, hstep⟩
  cases step?_eq_some.1 hstep with
  | manage now c => cases hbrings
  | dispatch now hdue => cases hbrings
  | fire hdue => cases hbrings
  | move m hrun => cases hbrings
  | deliver hrun hresult =>
    -- more may wait for the recorder now, but fewer runs are under way
    refine Prod.Lex.left _ _ ?_
    have hsize := Table.size_erase hrun
    show (s.running.erase _).size < s.running.size
    omega
  | take hfree hwaiting =>
    -- a whole recording comes up, but less waits
    refine Prod.Lex.right _ (Prod.Lex.left _ _ ?_)
    rw [hwaiting]
    exact Nat.lt_succ_self _
  | @reply r c next reply hrecorder hrest =>
    refine Prod.Lex.right _ (Prod.Lex.right _ (Prod.Lex.left _ _ ?_))
    have hleft : s.left = .ask c next := by rw [left, hrecorder, Option.map_some, hrest]; rfl
    show Procedure.Follows (r.rest.answered reply) s.left
    rw [hleft, hrest]
    exact Procedure.Follows.mk (I := Desk) next (reply c)
  | close hrecorder hrest =>
    -- nothing is left of the recording before or after, so only that the recorder is free counts
    have hleft : s.left = .done () := by rw [left, hrecorder, Option.map_some, hrest]; rfl
    have hone : s.recorder.toList.length = 1 := by rw [hrecorder]; rfl
    refine Prod.Lex.right _ (Prod.Lex.right _ ?_)
    show Prod.Lex _ _ (.done (), 0) (s.left, s.recorder.toList.length)
    rw [hleft, hone]
    exact Prod.Lex.right _ Nat.zero_lt_one

/-- Whether nothing is left to be brought on its way: nothing waits, nothing is being recorded, and
no run that is under way has ended. -/
structure Quiet (s : Service) : Prop where
  waiting : s.waiting = []
  recorder : s.recorder = none
  running : ∀ n r, s.running.get? n = some r → r.result? = none

/-- If no step brings anything on its way, nothing is left. -/
theorem quiet_of_stuck (hstuck : ∀ t, ¬Brings settings s t) : s.Quiet := by
  have hnone : ∀ e t, e.brings = true → ¬Step settings s e t := fun e t hbrings hstep =>
    hstuck t ⟨e, hbrings, step?_eq_some.2 hstep⟩
  have hfree : s.recorder = none := by
    rw [Option.eq_none_iff_forall_ne_some]
    intro r hr
    cases hrest : r.rest with
    | done u => exact hnone _ _ rfl (.close hr hrest)
    | ask c next => exact hnone _ _ rfl (.reply DeskCall.someReply hr hrest)
  refine ⟨?_, hfree, fun n r hr => ?_⟩
  · rw [List.eq_nil_iff_forall_not_mem]
    intro d hd
    obtain ⟨d', waiting, hwaiting⟩ := List.exists_cons_of_ne_nil (List.ne_nil_of_mem hd)
    exact hnone _ _ rfl (.take hfree hwaiting)
  · rw [Option.eq_none_iff_forall_ne_some]
    intro outcome hresult
    exact hnone _ _ rfl (.deliver hr hresult)

/-- A job that is fired at one and at two o'clock. In between its size is changed, and after that it
is taken out. -/
def hourly : Job := { (default : Job) with id := "a", schedule := "@hourly", desiredSize := 3 }

def obliging : Scaler.Replies
  | .getScale _ => .ok 1
  | .updateScale _ _ => .ok ()
  | .getAutoscaler _ _ => .error .namelessAutoscaler
  | .updateAutoscaler _ => .ok ()

def morning : List Event :=
  [.manage ⟨0, 0⟩ (.createOrUpdate hourly), .dispatch (3600 * nanosPerSecond), .fire,
    .move 0 (.begin 3600000), .manage ⟨3601, 0⟩ (.createOrUpdate { hourly with desiredSize := 5 }),
    .dispatch (7200 * nanosPerSecond), .fire, .manage ⟨7201, 0⟩ (.delete "a"),
    .move 1 (.begin 7200000), .move 1 (.answer obliging), .move 1 (.answer obliging),
    .move 1 (.settle 7202000), .deliver 1, .move 0 (.answer obliging), .move 0 (.answer obliging),
    .move 0 (.settle 7203000), .deliver 0]

/-- The run that began later ends first; each outcome comes with the size of its own run. -/
example : (run default { manager := .empty Zone.utc 0 } morning).arrived.map
    (fun d => (d.firing, d.job.desiredSize, d.outcome.toOption)) =
      [(1, 5, some "current replicas:1, desired replicas:5."),
        (0, 3, some "current replicas:1, desired replicas:3.")] := by
  decide +kernel

end Service

end CronScale
