import CronScale.Proofs.Scaling.Bounds
import CronScale.Proofs.Scaling.Performance
import CronScale.Proofs.Text.Reading
/-!
# Autoscalers amid failures

An attempt to scale what an autoscaler looks after may fail after its calls have taken effect, the
failing one included, and the next attempt goes on from what is stored then. What an attempt does is
right for whatever is stored when it begins (`Job.careful_scaleAutoscaler`), and a spec that is
stored changes at most once, when its bounds are widened. So it does not matter how often attempts
fail and where (`autoscaler_scaled`).
-/

namespace CronScale

open CronScale.Calendar

/-- Whether an autoscaler is the one that a target refers to. -/
def Autoscaler.IsAt (a : Autoscaler) (t : TargetRef) : Prop :=
  a.metadata.name = some t.name ∧ a.metadata.ns.getD "default" = t.ns

instance (a : Autoscaler) (t : TargetRef) : Decidable (a.IsAt t) :=
  inferInstanceAs (Decidable (_ ∧ _))

/-- Whether a reference is to the workload that an autoscaler names, in some namespace. Its API
version is cut at the first slash into group and version; without a slash all of it is the version,
and where there is none both are empty. -/
structure TargetRef.IsTo (t : TargetRef) (w : WorkloadRef) (ns : String) : Prop where
  name : t.name = w.name
  ns : t.ns = ns
  kind : t.kind = w.kind
  apiVersion : w.apiVersion.getD "" = t.group ++ "/" ++ t.version ∧ '/' ∉ t.group.toList ∨
    w.apiVersion.getD "" = t.version ∧ '/' ∉ t.version.toList ∧ t.group = ""

theorem Job.isTo_workloadOf (j : Job) (w : WorkloadRef) : (j.workloadOf w).IsTo w j.target.ns := by
  refine ⟨rfl, rfl, rfl, ?_⟩
  simp only [workloadOf, TargetRef.ofApiVersion, TargetRef.splitApiVersion, Text.cutString]
  cases hcut : Text.cut '/' (w.apiVersion.getD "").toList with
  | none => exact .inr ⟨rfl, Text.cut_eq_none.1 hcut, rfl⟩
  | some parts =>
    obtain ⟨group, version⟩ := parts
    obtain ⟨happend, hnot⟩ := Text.eq_append_of_cut hcut
    simp only [Option.map_some, Option.getD_some, String.toList_ofList]
    refine .inl ⟨String.toList_inj.1 ?_, hnot⟩
    simp [happend]

/-- What may become of the spec that is stored for a target when a call is answered. What is read
is what is stored, with a size of the workload that does not change. A write that succeeds is
stored; one that fails may be stored nevertheless. Nothing else changes what is stored. -/
def Serves (t : TargetRef) (current : Int) (stored : Option AutoscalerSpec) :
    (c : ScalerCall) → c.Reply → Option AutoscalerSpec → Prop
  | .getAutoscaler ns name, reply, stored' => stored' = stored ∧ (ns = t.ns → name = t.name →
      ∀ a, reply = .ok a → a.IsAt t ∧ a.spec = stored ∧ a.currentSize = current)
  | .updateAutoscaler a, reply, stored' =>
      (a.IsAt t → stored' = a.spec ∨ (∃ e, reply = .error e) ∧ stored' = stored) ∧
        (¬ a.IsAt t → stored' = stored)
  | _, _, stored' => stored' = stored

/-- Whether surroundings keep the autoscaler of a target as it was last written. -/
def Surroundings.Keep {σ : Type} (answer : Surroundings σ) (stored : σ → Option AutoscalerSpec)
    (t : TargetRef) (current : Int) : Prop :=
  ∀ c now w, Serves t current (stored w) c (answer c now w).reply (stored (answer c now w).after)

namespace Exchange

/-- Whether bounds were read or written that hold a size. -/
inductive Admits (size : Int) : Exchange Scaler → Prop
  | read (ns name : String) {a : Autoscaler} {spec : AutoscalerSpec} (hspec : a.spec = some spec)
      (hholds : spec.bounds.Holds size) : Admits size ⟨.getAutoscaler ns name, .ok a⟩
  | written {a : Autoscaler} {spec : AutoscalerSpec} (hspec : a.spec = some spec)
      (hholds : spec.bounds.Holds size) : Admits size ⟨.updateAutoscaler a, .ok ()⟩

/-- Whether an autoscaler was written with success. -/
def writes : Exchange Scaler → Bool
  | ⟨.updateAutoscaler _, .ok ()⟩ => true
  | _ => false

end Exchange

namespace Job

section

variable (j : Job) (current : Int)

/-- A spec with bounds that were moved for a job. -/
def widened (spec : AutoscalerSpec) : AutoscalerSpec :=
  { spec with bounds := spec.bounds.widen current j.desiredSize }

/-- Whether a call is right while a spec is stored and after what an attempt has asked before: the
size is only set if the workload is smaller and the bounds are known to hold it, and the spec is
only written to widen its bounds, if they must be moved. -/
def MayAsk (spec : AutoscalerSpec) (before : List (Exchange Scaler)) : ScalerCall → Prop
  | .updateScale t size => t = j.workloadOf spec.workload ∧ size = j.desiredSize ∧
      current < j.desiredSize ∧ ∃ e ∈ before, e.Admits j.desiredSize
  | .updateAutoscaler a => a.IsAt j.target ∧ a.spec = some (j.widened current spec) ∧
      spec.bounds.mustMove current j.desiredSize = true
  | _ => True

/-- Whether what is left of an attempt only asks rightly, whatever its calls are answered, and only
succeeds with bounds that hold the size. -/
def Careful :
    Procedure Scaler (Except Fault Report) → AutoscalerSpec → List (Exchange Scaler) → Prop
  | .done outcome, spec, _ => ∀ report, outcome = .ok report → spec.bounds.Holds j.desiredSize
  | .ask c rest, spec, before => j.MayAsk current spec before c ∧
      ∀ reply spec', Serves j.target current (some spec) c reply (some spec') →
        Careful (rest reply) spec' (before ++ [⟨c, reply⟩])

end

variable {j : Job} {current : Int} {spec : AutoscalerSpec} {before : List (Exchange Scaler)}

theorem not_mustMove_widened (j : Job) (current : Int) (spec : AutoscalerSpec) :
    (j.widened current spec).bounds.mustMove current j.desiredSize = false :=
  Bounds.not_mustMove_widen spec.bounds current j.desiredSize

theorem careful_failed (e : Fault) : j.Careful current (failed e) spec before :=
  fun _ hok => nomatch hok

/-- The size that is read does not matter: whether the workload is smaller, the autoscaler says. -/
theorem careful_getScale {f : Except Fault Int → Procedure Scaler (Except Fault Report)}
    (t : TargetRef)
    (h : ∀ reply, j.Careful current (f reply) spec (before ++ [⟨.getScale t, reply⟩])) :
    j.Careful current (Scaler.getScale t >>= f) spec before := by
  refine ⟨trivial, fun reply spec' hserves => ?_⟩
  obtain rfl : spec' = spec := Option.some.inj hserves
  exact h reply

theorem careful_updateScale {f : Except Fault Unit → Procedure Scaler (Except Fault Report)}
    {t : TargetRef} {size : Int} (hask : j.MayAsk current spec before (.updateScale t size))
    (h : ∀ reply, j.Careful current (f reply) spec (before ++ [⟨.updateScale t size, reply⟩])) :
    j.Careful current (Scaler.updateScale t size >>= f) spec before := by
  refine ⟨hask, fun reply spec' hserves => ?_⟩
  obtain rfl : spec' = spec := Option.some.inj hserves
  exact h reply

theorem careful_getAutoscaler
    {f : Except Fault Autoscaler → Procedure Scaler (Except Fault Report)}
    (hfailed : ∀ e, j.Careful current (f (.error e)) spec
      (before ++ [⟨.getAutoscaler j.target.ns j.target.name, .error e⟩]))
    (hread : ∀ a, a.IsAt j.target → a.spec = some spec → a.currentSize = current →
      j.Careful current (f (.ok a)) spec
        (before ++ [⟨.getAutoscaler j.target.ns j.target.name, .ok a⟩])) :
    j.Careful current (Scaler.getAutoscaler j.target.ns j.target.name >>= f) spec before := by
  refine ⟨trivial, fun reply spec' hserves => ?_⟩
  obtain ⟨hstored, hserves⟩ := hserves
  obtain rfl : spec' = spec := Option.some.inj hstored
  cases reply with
  | error e => exact hfailed e
  | ok a =>
    obtain ⟨hat, hspec, hcurrent⟩ := hserves rfl rfl a rfl
    exact hread a hat hspec hcurrent

/-- A write that fails may be stored nevertheless. -/
theorem careful_updateAutoscaler
    {f : Except Fault Unit → Procedure Scaler (Except Fault Report)} {a : Autoscaler}
    (hask : j.MayAsk current spec before (.updateAutoscaler a))
    (hfailed : ∀ e spec', j.Careful current (f (.error e)) spec'
      (before ++ [⟨.updateAutoscaler a, .error e⟩]))
    (hwritten : j.Careful current (f (.ok ())) (j.widened current spec)
      (before ++ [⟨.updateAutoscaler a, .ok ()⟩])) :
    j.Careful current (Scaler.updateAutoscaler a >>= f) spec before := by
  refine ⟨hask, fun reply spec' hserves => ?_⟩
  cases reply with
  | error e => exact hfailed e spec'
  | ok _ =>
    rcases hserves.1 hask.1 with hstored | ⟨⟨e, he⟩, -⟩
    · obtain rfl : spec' = j.widened current spec := Option.some.inj (hstored.trans hask.2.1)
      exact hwritten
    · cases he

theorem careful_setSize (hholds : spec.bounds.Holds j.desiredSize)
    (hadmits : ∃ e ∈ before, e.Admits j.desiredSize) (hsmall : current < j.desiredSize)
    (said : Int) :
    j.Careful current (j.setSize (j.workloadOf spec.workload) said) spec before := by
  refine careful_updateScale ⟨rfl, rfl, hsmall, hadmits⟩ fun reply => ?_
  cases reply with
  | error e => exact careful_failed e
  | ok _ => exact fun _ _ => hholds

theorem careful_growWorkload (hholds : spec.bounds.Holds j.desiredSize)
    (hadmits : ∃ e ∈ before, e.Admits j.desiredSize) (name : String) (said : Int) :
    j.Careful current (j.growWorkload name (j.workloadOf spec.workload) current said) spec
      before := by
  rw [growWorkload]
  split
  next => exact fun _ _ => hholds
  next hsmall => exact careful_setSize hholds hadmits (Int.not_le.1 hsmall) said

theorem careful_scaleAutoscaler (j : Job) (current : Int) (spec : AutoscalerSpec) :
    j.Careful current j.scaleAutoscaler spec [] := by
  refine careful_getAutoscaler (fun e => careful_failed e) fun a hat hspec hcurrent => ?_
  simp only [hspec, hcurrent]
  refine careful_getScale _ fun reply => ?_
  cases reply with
  | error e => exact careful_failed e
  | ok said =>
    simp only
    split
    next hmove =>
      have hholds : (j.widened current spec).bounds.Holds j.desiredSize :=
        Bounds.holds_widen spec.bounds current j.desiredSize
      refine careful_updateAutoscaler ⟨hat, rfl, hmove⟩ (fun e _ => careful_failed e) ?_
      exact careful_growWorkload hholds
        ⟨_, List.mem_append_right _ (List.mem_singleton_self _), .written rfl hholds⟩ _ _
    next hmove =>
      have hholds := Bounds.holds_of_not_mustMove (Bool.eq_false_iff.2 hmove)
      exact careful_growWorkload hholds ⟨_, List.mem_cons_self, .read _ _ hspec hholds⟩ _ _

/-- A call that may be asked leaves what is stored as it is, without a write that succeeds, or it
widens the bounds. -/
theorem MayAsk.serves {c : ScalerCall} {reply : c.Reply} {stored : Option AutoscalerSpec}
    (h : j.MayAsk current spec before c)
    (hserves : Serves j.target current (some spec) c reply stored) :
    stored = some spec ∧ Exchange.writes ⟨c, reply⟩ = false ∨
      stored = some (j.widened current spec) ∧
        spec.bounds.mustMove current j.desiredSize = true := by
  cases c with
  | getScale t => exact .inl ⟨hserves, rfl⟩
  | updateScale t size => exact .inl ⟨hserves, rfl⟩
  | getAutoscaler ns name => exact .inl ⟨hserves.1, rfl⟩
  | updateAutoscaler a =>
    obtain ⟨hat, hspec, hmove⟩ := h
    rcases hserves.1 hat with hwritten | ⟨⟨e, rfl⟩, hkept⟩
    · exact .inr ⟨hwritten.trans hspec, hmove⟩
    · exact .inl ⟨hkept, rfl⟩

/-- Whether an attempt only sets the size of a workload, in the namespace of the job's target, to
what is desired, if the workload is smaller, and with bounds read or written before that hold the
size. -/
def SetsRightly (j : Job) (current : Int) (workload : WorkloadRef)
    (es : List (Exchange Scaler)) : Prop :=
  ∀ before t size reply, before ++ [⟨.updateScale t size, reply⟩] <+: es →
    t.IsTo workload j.target.ns ∧ size = j.desiredSize ∧ current < j.desiredSize ∧
      ∃ e ∈ before, e.Admits j.desiredSize

theorem setsRightly_nil (j : Job) (current : Int) (workload : WorkloadRef) :
    j.SetsRightly current workload [] :=
  fun _ _ _ _ h => absurd (List.prefix_nil.1 h) (by simp)

theorem SetsRightly.append (h : j.SetsRightly current spec.workload before) {c : ScalerCall}
    (hask : j.MayAsk current spec before c) (reply : c.Reply) :
    j.SetsRightly current spec.workload (before ++ [⟨c, reply⟩]) := by
  intro before' t size reply' hprefix
  rcases concat_prefix_concat hprefix with ⟨rfl, hlast⟩ | hprefix
  · cases hlast
    obtain ⟨rfl, hright⟩ := hask
    exact ⟨j.isTo_workloadOf spec.workload, hright⟩
  · exact h before' t size reply' hprefix

end Job

namespace Performance

variable {σ : Type} {answer : Surroundings σ} {j : Job} {s : ExecutionSettings} {current : Int}
  {spec₀ spec : AutoscalerSpec} {p : Performance σ}

/-- What holds of a performance with a spec that is stored now, if another one was stored when it
began. -/
structure Tended (j : Job) (current : Int) (spec₀ spec : AutoscalerSpec) (p : Performance σ) :
    Prop where
  stored : spec = spec₀ ∨ spec = j.widened current spec₀
  -- Bounds that must be moved have not been written before.
  writes : p.attempts.flatten.countP Exchange.writes +
    (spec.bounds.mustMove current j.desiredSize).toNat ≤ 1
  sets : ∀ es ∈ p.attempts, j.SetsRightly current spec₀.workload es
  rest : match p.state with
    | .attempting _ _ rest => j.Careful current rest spec p.exchanges
    | .waiting _ _ _ => p.exchanges = []
    | .ended outcome => ∀ report, outcome = .ok report → spec.bounds.Holds j.desiredSize

theorem Tended.workload (h : p.Tended j current spec₀ spec) : spec.workload = spec₀.workload := by
  rcases h.stored with rfl | rfl <;> rfl

section

variable {started : Int} {failures : Nat} {c : ScalerCall}
  {rest : c.Reply → Procedure Scaler (Except Fault Report)}

theorem flatten_attempts_answered (answer : Surroundings σ) (p : Performance σ) :
    (p.answered answer started failures c rest).attempts.flatten =
      p.attempts.flatten ++ [⟨c, (answer c p.now p.surroundings).reply⟩] := by
  simp only [attempts, Performance.answered, List.flatten_append, List.flatten_singleton,
    List.append_assoc]

theorem Tended.answered {stored : σ → Option AutoscalerSpec}
    (hkeep : answer.Keep stored j.target current) (h : p.Tended j current spec₀ spec)
    (hstored : stored p.surroundings = some spec)
    (hstate : p.state = .attempting started failures (.ask c rest)) :
    ∃ spec', stored (p.answered answer started failures c rest).surroundings = some spec' ∧
      (p.answered answer started failures c rest).Tended j current spec₀ spec' := by
  have hserves := hkeep c p.now p.surroundings
  have hcareful := h.rest
  rw [hstored] at hserves
  rw [hstate] at hcareful
  obtain ⟨hask, hrest⟩ := hcareful
  have hsets : ∀ es ∈ (p.answered answer started failures c rest).attempts,
      j.SetsRightly current spec₀.workload es := by
    intro es hes
    rcases List.mem_append.1 hes with hes | hes
    · exact h.sets es (List.mem_append_left _ hes)
    · obtain rfl := List.mem_singleton.1 hes
      have hnow := h.sets p.exchanges (List.mem_append_right _ (List.mem_singleton_self _))
      rw [← h.workload] at hnow ⊢
      exact hnow.append hask _
  have hcount := h.writes
  rcases hask.serves hserves with ⟨hkept, hwrites⟩ | ⟨hwidened, hmove⟩
  · refine ⟨spec, hkept, h.stored, ?_, hsets, hrest _ _ (hkept ▸ hserves)⟩
    rw [flatten_attempts_answered, List.countP_append, List.countP_singleton, hwrites]
    exact hcount
  · refine ⟨j.widened current spec, hwidened, ?_, ?_, hsets, hrest _ _ (hwidened ▸ hserves)⟩
    · rcases h.stored with rfl | rfl
      · exact .inr rfl
      · rw [j.not_mustMove_widened] at hmove
        cases hmove
    · rw [hmove, Bool.toNat_true] at hcount
      rw [flatten_attempts_answered, List.countP_append, j.not_mustMove_widened, Bool.toNat_false]
      have : [⟨c, (answer c p.now p.surroundings).reply⟩].countP Exchange.writes ≤ 1 :=
        List.countP_le_length
      omega

end

section

variable {started : Int} {failures : Nat}

theorem attempts_judged (j : Job) (s : ExecutionSettings) (p : Performance σ)
    (outcome : Except Fault Report) :
    (p.judged j s started failures outcome).attempts = p.attempts ++ [[]] := by
  simp only [attempts, Performance.judged, List.map_append, List.map_singleton]

theorem Tended.judged {outcome : Except Fault Report} (h : p.Tended j current spec₀ spec)
    (hstate : p.state = .attempting started failures (.done outcome)) :
    (p.judged j s started failures outcome).Tended j current spec₀ spec where
  stored := h.stored
  writes := by
    rw [attempts_judged, List.flatten_append, List.flatten_singleton, List.append_nil]
    exact h.writes
  sets := by
    intro es hes
    rw [attempts_judged] at hes
    rcases List.mem_append.1 hes with hes | hes
    · exact h.sets es hes
    · rw [List.mem_singleton.1 hes]
      exact j.setsRightly_nil current spec₀.workload
  rest := by
    have hcareful := h.rest
    rw [hstate] at hcareful
    cases outcome with
    | ok report => exact hcareful
    | error e =>
      simp only [Performance.judged, Execution.settle, Job.afterAttempt]
      split_ifs
      · exact fun _ hok => nomatch hok
      · trivial

theorem Tended.waited {due : Int} (hauto : j.target.isAutoscaler = true)
    (h : p.Tended j current spec₀ spec) (hstate : p.state = .waiting started failures due) :
    (p.waited j s started failures due).Tended j current spec₀ spec where
  stored := h.stored
  writes := h.writes
  sets := h.sets
  rest := by
    have hnothing := h.rest
    rw [hstate] at hnothing
    rw [state_waited]
    simp only [Performance.waited, hnothing, Job.attempt, hauto, if_true]
    exact j.careful_scaleAutoscaler current spec

end

theorem tended_begin (hauto : j.target.isAutoscaler = true) {now : Int}
    (hopen : Schedule.excludedBy j.excludeDates s.zone (Instant.ofMillis now) = none) (w : σ) :
    (begin j s now w).Tended j current spec spec where
  stored := .inl rfl
  writes := by
    have hnothing : (begin j s now w).attempts = [[]] := rfl
    rw [hnothing]
    exact Nat.add_le_add_left (Bool.toNat_le _) _
  sets := by
    intro es hes
    obtain rfl : es = [] := List.mem_singleton.1 hes
    exact j.setsRightly_nil current spec.workload
  rest := by
    rw [state_begin hopen]
    simp only [begin, Job.attempt, hauto, if_true]
    exact j.careful_scaleAutoscaler current spec

theorem Tended.next {stored : σ → Option AutoscalerSpec}
    (hauto : j.target.isAutoscaler = true) (hkeep : answer.Keep stored j.target current)
    (h : ∃ spec, stored p.surroundings = some spec ∧ p.Tended j current spec₀ spec) :
    ∃ spec, stored (next answer j s p).surroundings = some spec ∧
      (next answer j s p).Tended j current spec₀ spec := by
  obtain ⟨spec, hstored, htended⟩ := h
  unfold Performance.next
  split
  next started failures c rest hstate => exact htended.answered hkeep hstored hstate
  next started failures outcome hstate => exact ⟨spec, hstored, htended.judged hstate⟩
  next started failures due hstate => exact ⟨spec, hstored, htended.waited hauto hstate⟩
  next => exact ⟨spec, hstored, htended⟩

end Performance

/-- Whatever fails and however often, an execution for an autoscaler that does not rest writes the
autoscaler with success at most once, and leaves its spec as it was except that its bounds may have
been widened. It sets the size of no other workload than that of the autoscaler, to no other size
than the desired one, only if the workload is smaller, and in an attempt in which bounds that hold
the size were read or written before. If it succeeds, the bounds that are stored then hold the
size. -/
theorem autoscaler_scaled {σ : Type} (answer : Surroundings σ) (stored : σ → Option AutoscalerSpec)
    (j : Job) (s : ExecutionSettings) (current now : Int) (w : σ) (spec₀ : AutoscalerSpec)
    (hauto : j.target.isAutoscaler = true) (hkeep : answer.Keep stored j.target current)
    (hspec : stored w = some spec₀)
    (hopen : Schedule.excludedBy j.excludeDates s.zone (Instant.ofMillis now) = none) (n : Nat) :
    ∃ p spec, Performance.after answer j s n (.begin j s now w) = p ∧
      stored p.surroundings = some spec ∧ (spec = spec₀ ∨ spec = j.widened current spec₀) ∧
      p.attempts.flatten.countP Exchange.writes ≤ 1 ∧
      (∀ es ∈ p.attempts, j.SetsRightly current spec₀.workload es) ∧
      ∀ report, p.state = .ended (.ok report) → spec.bounds.Holds j.desiredSize := by
  obtain ⟨spec, hstored, htended⟩ := Performance.after_induction answer j s
    (fun p => ∃ spec, stored p.surroundings = some spec ∧ p.Tended j current spec₀ spec)
    ⟨spec₀, hspec, Performance.tended_begin hauto hopen w⟩
    (fun p => Performance.Tended.next hauto hkeep) n
  refine ⟨_, spec, rfl, hstored, htended.stored, ?_, htended.sets, fun report hended => ?_⟩
  · exact Nat.le_trans (Nat.le_add_right _ _) htended.writes
  · have hholds := htended.rest
    rw [hended] at hholds
    exact hholds report rfl

/-- Surroundings that keep the spec of an autoscaler and lose the answers to some calls, which take
effect nevertheless. -/
def forgetful (t : TargetRef) (current : Int) (lost : List Nat) :
    Surroundings (Option AutoscalerSpec × Nat) := fun c _ w =>
  let reply : c.Reply :=
    if w.2 ∈ lost then Rehearsal.ScriptedScaler.refuse (.missing "answer") c
    else match c with
      | .getScale _ => .ok current
      | .updateScale _ _ => .ok ()
      | .getAutoscaler _ _ =>
        .ok ⟨{ name := some t.name, ns := some t.ns }, w.1, some { current := some current }⟩
      | .updateAutoscaler _ => .ok ()
  let stored : Option AutoscalerSpec :=
    match c with
    | .updateAutoscaler a => if a.IsAt t then a.spec else w.1
    | _ => w.1
  ⟨reply, 40, stored, w.2 + 1⟩

theorem keep_forgetful (t : TargetRef) (current : Int) (lost : List Nat) :
    (forgetful t current lost).Keep Prod.fst t current := by
  intro c now w
  cases c with
  | getScale t' => rfl
  | updateScale t' size => rfl
  | getAutoscaler ns name =>
    refine ⟨rfl, fun _ _ a ha => ?_⟩
    by_cases hlost : w.2 ∈ lost
    · cases (if_pos hlost).symm.trans ha
    · cases (if_neg hlost).symm.trans ha
      exact ⟨⟨rfl, rfl⟩, rfl, rfl⟩
  | updateAutoscaler a => exact ⟨fun hat => .inl (if_pos hat), fun hat => if_neg hat⟩

/-- A job that never rests, for an autoscaler. -/
def peakJob : Job :=
  { id := "job-1", name := "peak", schedule := "0 0 8 * * *", desiredSize := 5, runOnce := false
    excludeDates := [], owner := ⟨"default", "web"⟩
    target := ⟨"web", "default", "HorizontalPodAutoscaler", "autoscaling", "v2"⟩ }

/-- A spec whose upper bound is too low for five. -/
def tightSpec : AutoscalerSpec :=
  { bounds := ⟨none, 4⟩, workload := ⟨some "apps/v1", "Deployment", "web"⟩ }

/-- The answer to the write of the autoscaler is lost in the first attempt, that to setting the size
in the second one; the third one succeeds. -/
theorem forgetful_autoscaler_scaled : ∃ p spec,
    Performance.after (forgetful peakJob.target 2 [2, 5]) peakJob ⟨3000, 10000, Zone.utc⟩ 14
      (.begin peakJob ⟨3000, 10000, Zone.utc⟩ 0 (some tightSpec, 0)) = p ∧
      p.state = .ended (.ok (.scaled 2 5)) ∧ p.surroundings.1 = some spec ∧
      spec.bounds.Holds 5 ∧ p.attempts.flatten.countP Exchange.writes ≤ 1 := by
  obtain ⟨_, spec, rfl, hstored, _, hwrites, _, hholds⟩ := autoscaler_scaled
    (forgetful peakJob.target 2 [2, 5]) Prod.fst peakJob ⟨3000, 10000, Zone.utc⟩ 2 0
    (some tightSpec, 0) tightSpec (by decide) (keep_forgetful peakJob.target 2 [2, 5]) rfl rfl 14
  have hended : (Performance.after (forgetful peakJob.target 2 [2, 5]) peakJob
      ⟨3000, 10000, Zone.utc⟩ 14 (.begin peakJob ⟨3000, 10000, Zone.utc⟩ 0
        (some tightSpec, 0))).state = .ended (.ok (.scaled 2 5)) := rfl
  exact ⟨_, spec, rfl, hended, hstored, hholds _ hended, hwrites⟩

end CronScale
