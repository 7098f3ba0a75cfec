import CronScale.Manager.Controller
import CronScale.Manager.Record
/-!
# The world of a manager

A world holds the resources, one manager and everything that is under way: the procedures that the
manager has begun, each at some point between two of its calls, and the jobs that are being carried
out. Resources are written and deleted by their users at any time, and their statuses only by
procedures. Calls are answered one at a time, in any order. The home of the resources may fail to
answer; a write of a status that is answered with a fault may have been made all the same, but a
fault that says that the resource is missing is given only if it is. Outcomes may be lost, and a
manager may be replaced by a new one, with which everything under way is lost.

Clocks play no part: every step may happen at any time.
-/

namespace CronScale

open CronScale.Calendar

/-- For which job of which resource an id was given out. -/
abbrev Issued := String → Option (OwnerKey × String)

/-- Everything a manager has to do with. -/
structure World where
  /-- The resources, by their keys. -/
  resources : OwnerKey → Option Resource
  /-- The versions that a resource with a key has ever had. -/
  versions : OwnerKey → List String
  manager : Manager
  issued : Issued
  /-- The procedures under way. -/
  procedures : List (Procedure Desk Unit)
  /-- The jobs that are being carried out and whose outcomes are awaited. -/
  executing : List Job
  /-- All jobs that were ever carried out, those that were run once more included. -/
  executed : List Job

namespace World

/-- A world without resources, before its manager has done anything. -/
def new (zone : Zone) (staleness : Int) : World where
  resources := fun _ => none
  versions := fun _ => []
  manager := .empty zone staleness
  issued := fun _ => none
  procedures := []
  executing := []
  executed := []

/-- Stores a resource under a version. -/
def write (w : World) (key : OwnerKey) (r : Resource) (version : String) : World :=
  { w with
    resources := fun k =>
      if k = key then
        some { r with metadata := { r.metadata with resourceVersion := some version } }
      else w.resources k
    versions := fun k => if k = key then version :: w.versions k else w.versions k }

/-- Takes a resource away. -/
def delete (w : World) (key : OwnerKey) : World :=
  { w with resources := fun k => if k = key then none else w.resources k }

/-- Notes for whom an id was given out. -/
def issue (w : World) (id : String) (owner : OwnerKey) (name : String) : World :=
  { w with issued := fun i => if i = id then some (owner, name) else w.issued i }

/-- A procedure whose result nobody waits for. -/
def task {α : Type} (p : Procedure Desk α) : Procedure Desk Unit := p.bind fun _ => .done ()

/-- Whether a status is written: the resource is there and has the version that the write is
against, if it is against one. -/
def Patched (w : World) (key : OwnerKey) (s : Status) (version : Option String) (w' : World) :
    Prop :=
  ∃ r v, w.resources key = some r ∧ (version = none ∨ version = r.metadata.resourceVersion) ∧
    v ∉ w.versions key ∧ w' = w.write key { r with status := some s } v

/-- How a call is answered and what comes of it. -/
def Answers (w : World) : (c : DeskCall) → c.Reply → World → Prop
  | .store (.fetch key), reply, w' =>
    w' = w ∧ (reply = .ok (w.resources key) ∨ ∃ e, reply = .error e)
  | .store (.patchStatus key s version), reply, w' =>
    (reply = .ok () ∧ w.Patched key s version w') ∨
      ∃ e, reply = .error e ∧
        ((w' = w ∧ (e.isMissing = true → w.resources key = none)) ∨
          (e.isMissing = false ∧ w.Patched key s version w'))
  | .store (.publish _ _), _, w' => w' = w
  | .manager c, reply, w' =>
    ∃ now, reply = (w.manager.answer now c).1 ∧
      w' = { w with manager := (w.manager.answer now c).2 }
  | .freshId owner name, id, w' => id ≠ "" ∧ w.issued id = none ∧ w' = w.issue id owner name
  | .publishCounts _, _, w' => w' = w
  | .startSweep, _, w' => w' = { w with procedures := task sweep :: w.procedures }
  | .startReruns jobs, _, w' => w' = { w with executed := w.executed ++ jobs }

section

variable {w w' : World} {key : OwnerKey} {s : Status} {version : Option String}

theorem Patched.manager (h : w.Patched key s version w') : w'.manager = w.manager := by
  obtain ⟨_, _, _, _, _, rfl⟩ := h
  rfl

theorem Patched.issued (h : w.Patched key s version w') : w'.issued = w.issued := by
  obtain ⟨_, _, _, _, _, rfl⟩ := h
  rfl

theorem Patched.resources_of_ne (h : w.Patched key s version w') {k : OwnerKey} (hne : k ≠ key) :
    w'.resources k = w.resources k := by
  obtain ⟨_, _, _, _, _, rfl⟩ := h
  exact if_neg hne

theorem Patched.resource (h : w.Patched key s version w') :
    ∃ r r', w.resources key = some r ∧ w'.resources key = some r' ∧ r'.spec = r.spec ∧
      r'.status = some s := by
  obtain ⟨r, v, hr, _, _, rfl⟩ := h
  exact ⟨r, _, hr, if_pos rfl, rfl, rfl⟩

variable {c : DeskCall} {reply : c.Reply}

/-- Only the manager's own steps change the manager. -/
theorem manager_of_answers (h : w.Answers c reply w') (hc : ∀ mc, c ≠ .manager mc) :
    w'.manager = w.manager := by
  cases c with
  | store c =>
    cases c with
    | fetch k => exact congrArg World.manager h.1
    | patchStatus k s version =>
      rcases h with ⟨_, hpatched⟩ | ⟨_, _, ⟨rfl, _⟩ | ⟨_, hpatched⟩⟩
      · exact hpatched.manager
      · rfl
      · exact hpatched.manager
    | publish r e => exact congrArg World.manager h
  | manager mc => exact absurd rfl (hc mc)
  | freshId owner name =>
    obtain ⟨_, _, rfl⟩ := h
    rfl
  | publishCounts counts => exact congrArg World.manager h
  | startSweep =>
    obtain rfl : w' = _ := h
    rfl
  | startReruns jobs =>
    obtain rfl : w' = _ := h
    rfl

/-- If a call changes the manager, it does so by a step of the manager's own. -/
theorem answer_of_answers (h : w.Answers c reply w') : w'.manager = w.manager ∨
    ∃ mc now, c = .manager mc ∧ w'.manager = (w.manager.answer now mc).2 := by
  by_cases hc : ∃ mc, c = .manager mc
  · obtain ⟨mc, rfl⟩ := hc
    obtain ⟨now, _, rfl⟩ := h
    exact .inr ⟨mc, now, rfl, rfl⟩
  · exact .inl (manager_of_answers h fun mc heq => hc ⟨mc, heq⟩)

/-- Only a write of its status changes a resource. -/
theorem resources_of_answers (h : w.Answers c reply w')
    (hc : ∀ s version, c ≠ .store (.patchStatus key s version)) :
    w'.resources key = w.resources key := by
  cases c with
  | store c =>
    cases c with
    | fetch k => rw [h.1]
    | patchStatus k s version =>
      have hne : key ≠ k := fun heq => hc s version (heq ▸ rfl)
      rcases h with ⟨_, hpatched⟩ | ⟨_, _, ⟨rfl, _⟩ | ⟨_, hpatched⟩⟩
      · exact hpatched.resources_of_ne hne
      · rfl
      · exact hpatched.resources_of_ne hne
    | publish r e => exact congrFun (congrArg World.resources h) key
  | manager mc =>
    obtain ⟨_, _, rfl⟩ := h
    rfl
  | freshId owner name =>
    obtain ⟨_, _, rfl⟩ := h
    rfl
  | publishCounts counts => exact congrFun (congrArg World.resources h) key
  | startSweep =>
    obtain rfl : w' = _ := h
    rfl
  | startReruns jobs =>
    obtain rfl : w' = _ := h
    rfl

/-- A call carries no job out unless it starts reruns. -/
theorem executed_of_answers (h : w.Answers c reply w') (hc : ∀ jobs, c ≠ .startReruns jobs) :
    w'.executed = w.executed := by
  cases c with
  | store c =>
    cases c with
    | fetch k => rw [h.1]
    | patchStatus k s version =>
      rcases h with ⟨_, _, _, _, _, _, rfl⟩ | ⟨_, _, ⟨rfl, _⟩ | ⟨_, _, _, _, _, _, rfl⟩⟩
      · rfl
      · rfl
      · rfl
    | publish r e => exact congrArg World.executed h
  | manager mc =>
    obtain ⟨_, _, rfl⟩ := h
    rfl
  | freshId owner name =>
    obtain ⟨_, _, rfl⟩ := h
    rfl
  | publishCounts counts => exact congrArg World.executed h
  | startSweep =>
    obtain rfl : w' = _ := h
    rfl
  | startReruns jobs => exact absurd rfl (hc jobs)

/-- A call begins no procedure but a pass that collects lost jobs. -/
theorem procedures_of_answers (h : w.Answers c reply w') :
    w'.procedures = w.procedures ∨ w'.procedures = task sweep :: w.procedures := by
  cases c with
  | store c =>
    cases c with
    | fetch k => exact .inl (congrArg World.procedures h.1)
    | patchStatus k s version =>
      rcases h with ⟨_, _, _, _, _, _, rfl⟩ | ⟨_, _, ⟨rfl, _⟩ | ⟨_, _, _, _, _, _, rfl⟩⟩
      · exact .inl rfl
      · exact .inl rfl
      · exact .inl rfl
    | publish r e => exact .inl (congrArg World.procedures h)
  | manager mc =>
    obtain ⟨_, _, rfl⟩ := h
    exact .inl rfl
  | freshId owner name =>
    obtain ⟨_, _, rfl⟩ := h
    exact .inl rfl
  | publishCounts counts => exact .inl (congrArg World.procedures h)
  | startSweep =>
    obtain rfl : w' = _ := h
    exact .inr rfl
  | startReruns jobs =>
    obtain rfl : w' = _ := h
    exact .inl rfl

theorem mem_procedures_of_answers (h : w.Answers c reply w') {p : Procedure Desk Unit}
    (hp : p ∈ w.procedures) : p ∈ w'.procedures := by
  rcases procedures_of_answers h with hsame | hmore
  · exact hsame ▸ hp
  · exact hmore ▸ List.mem_cons_of_mem _ hp

theorem forall_procedures_of_answers (h : w.Answers c reply w') {test : Procedure Desk Unit → Prop}
    (hsweep : test (task sweep)) (hall : ∀ p ∈ w.procedures, test p) :
    ∀ p ∈ w'.procedures, test p := by
  rcases procedures_of_answers h with hsame | hmore
  · exact hsame ▸ hall
  · exact hmore ▸ List.forall_mem_cons.2 ⟨hsweep, hall⟩

end

/-- What is begun by itself: reconciles of resources, passes that collect lost jobs, and what the
watch for deletions does. -/
def Begun (p : Procedure Desk Unit) : Prop :=
  (∃ key, p = task (reconcile key)) ∨ p = task sweep ∨ ∃ e, p = watchDeletions e

/-- What can happen. -/
inductive Step : World → World → Prop
  /-- A user writes a resource; its status stays as it is. -/
  | put {w : World} (r : Resource) (version : String) (hfresh : version ∉ w.versions r.key) :
      Step w (w.write r.key { r with status := (w.resources r.key).bind (·.status) } version)
  | delete {w : World} (key : OwnerKey) : Step w (w.delete key)
  | begin {w : World} (p : Procedure Desk Unit) (hp : Begun p) :
      Step w { w with procedures := p :: w.procedures }
  /-- A procedure asks and goes on with the answer. -/
  | call {w w' : World} {ps qs : List (Procedure Desk Unit)} {c : DeskCall}
      (next : c.Reply → Procedure Desk Unit) (reply : c.Reply)
      (hask : w.procedures = ps ++ .ask c next :: qs)
      (hanswer : Answers { w with procedures := ps ++ qs } c reply w') :
      Step w { w' with procedures := next reply :: w'.procedures }
  | turn {w : World} (now : Int) :
      Step w { w with
        manager := { w.manager with engine := (w.manager.engine.turn now).2 }
        executing := w.executing ++ (w.manager.engine.turn now).1
        executed := w.executed ++ (w.manager.engine.turn now).1 }
  | start {w : World} (now : Int) :
      Step w { w with manager := { w.manager with engine := w.manager.engine.start now } }
  | stop {w : World} :
      Step w { w with manager := { w.manager with engine := w.manager.engine.stop } }
  /-- A job has been carried out, and its outcome is recorded. -/
  | finish {w : World} {js ks : List Job} (job : Job) (settings : ManagerSettings)
      (outcome : Except Fault String) (hjob : w.executing = js ++ job :: ks) :
      Step w { w with
        executing := js ++ ks
        procedures := record settings job outcome :: w.procedures }
  /-- An outcome is lost. -/
  | lose {w : World} {js ks : List Job} (job : Job) (hjob : w.executing = js ++ job :: ks) :
      Step w { w with executing := js ++ ks }
  /-- A new manager takes the place of the present one. -/
  | restart {w : World} (zone : Zone) (staleness : Int) :
      Step w { w with manager := .empty zone staleness, procedures := [], executing := [] }

/-- The worlds that can come about. -/
inductive Reachable : World → Prop
  | new (zone : Zone) (staleness : Int) : Reachable (new zone staleness)
  | step {w w' : World} : Reachable w → Step w w' → Reachable w'

/-- One procedure that is carried out call by call, while other things happen in between. The
steps of the procedure itself are listed with the worlds before and after them. -/
inductive Exec {α : Type} (between : World → World → Prop) :
    World → Procedure Desk α → List (World × World) → α → World → Prop
  | done {w : World} (a : α) : Exec between w (.done a) [] a w
  | between {w w' w'' : World} {p : Procedure Desk α} {own : List (World × World)} {a : α} :
      between w w' → Exec between w' p own a w'' → Exec between w p own a w''
  | ask {w w' w'' : World} {c : DeskCall} {next : c.Reply → Procedure Desk α} {reply : c.Reply}
      {own : List (World × World)} {a : α} :
      Answers w c reply w' → Exec between w' (next reply) own a w'' →
      Exec between w (.ask c next) ((w, w') :: own) a w''

end World

end CronScale
