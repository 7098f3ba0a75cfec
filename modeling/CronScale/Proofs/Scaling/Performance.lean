import CronScale.Proofs.Exchanges
import CronScale.Rehearsal.Scaler
/-!
# Executions amid their surroundings

What the calls of an execution are answered, and how long that takes, is up to its surroundings.
Given these, an execution goes on by itself: a call is answered, an attempt that is done is judged,
and a wait is over when it is due. All calls with their answers are kept, attempt by attempt, with
the times at which the attempts began and were over. What an execution comes to in a rehearsal, it
comes to in this way, amid a scripted cluster (`Rehearsal.performed_of_rehearseExecution`).
-/

namespace CronScale

open CronScale.Calendar

/-- What comes first in a list that has grown by one came first before, or is all of it. -/
theorem concat_prefix_concat {α : Type} {first l : List α} {a b : α}
    (h : first ++ [a] <+: l ++ [b]) : first = l ∧ a = b ∨ first ++ [a] <+: l := by
  rcases List.prefix_concat_iff.1 h with heq | hprefix
  · obtain ⟨hfirst, hlast⟩ := List.append_inj' heq rfl
    exact .inl ⟨hfirst, List.singleton_inj.1 hlast⟩
  · exact .inr hprefix

/-- How a call is answered: with what, after how many milliseconds, and what has become of the
surroundings. -/
structure Answer (σ : Type) (c : ScalerCall) where
  reply : c.Reply
  delay : Nat
  after : σ

/-- Surroundings of executions, which answer calls that are made at some time. -/
abbrev Surroundings (σ : Type) : Type := (c : ScalerCall) → Int → σ → Answer σ c

/-- An attempt that is over. -/
structure Try where
  begun : Int
  exchanges : List (Exchange Scaler)
  ended : Int
  outcome : Except Fault Report

def Try.duration (t : Try) : Int := t.ended - t.begun

/-- An execution at some time, with its surroundings, the attempts that are over, and when the last
attempt began and what it has asked so far. -/
structure Performance (σ : Type) where
  now : Int
  state : Execution
  surroundings : σ
  tries : List Try
  begun : Int
  exchanges : List (Exchange Scaler)

namespace Performance

variable {σ : Type}

section

variable (answer : Surroundings σ) (j : Job) (s : ExecutionSettings)

def begin (now : Int) (surroundings : σ) : Performance σ :=
  ⟨now, j.execute s now, surroundings, [], now, []⟩

def answered (p : Performance σ) (started : Int) (failures : Nat) (c : ScalerCall)
    (rest : c.Reply → Procedure Scaler (Except Fault Report)) : Performance σ :=
  let a := answer c p.now p.surroundings
  { p with
    now := p.now + a.delay
    state := .attempting started failures (rest a.reply)
    surroundings := a.after
    exchanges := p.exchanges ++ [⟨c, a.reply⟩] }

def judged (p : Performance σ) (started : Int) (failures : Nat)
    (outcome : Except Fault Report) : Performance σ :=
  { p with
    state := Execution.settle j s p.now (.attempting started failures (.done outcome))
    tries := p.tries ++ [⟨p.begun, p.exchanges, p.now, outcome⟩]
    exchanges := [] }

/-- A wait lasts until it is due. -/
def waited (p : Performance σ) (started : Int) (failures : Nat) (due : Int) : Performance σ :=
  let now := max p.now due
  { p with
    now := now
    state := Execution.settle j s now (.waiting started failures due)
    begun := now }

/-- What happens next. -/
def next (p : Performance σ) : Performance σ :=
  match p.state with
  | .attempting started failures (.ask c rest) => p.answered answer started failures c rest
  | .attempting started failures (.done outcome) => p.judged j s started failures outcome
  | .waiting started failures due => p.waited j s started failures due
  | .ended _ => p

/-- What has become of an execution after some steps. -/
def after : Nat → Performance σ → Performance σ
  | 0, p => p
  | n + 1, p => after n (next answer j s p)

end

/-- What the attempts have asked so far, the last one included. -/
def attempts (p : Performance σ) : List (List (Exchange Scaler)) :=
  p.tries.map Try.exchanges ++ [p.exchanges]

variable {j : Job} {s : ExecutionSettings} {p : Performance σ} {started : Int} {failures : Nat}

theorem state_begin {now : Int}
    (hopen : Schedule.excludedBy j.excludeDates s.zone (Instant.ofMillis now) = none) (w : σ) :
    (begin j s now w).state = .attempting now 0 j.attempt := by
  simp only [begin, Job.execute, hopen]

theorem state_waited (p : Performance σ) (due : Int) :
    (p.waited j s started failures due).state = .attempting started failures j.attempt :=
  if_pos (Int.le_max_right _ _)

theorem state_judged_of_timeout (j : Job) (failures : Nat) (e : Fault)
    (h : s.retryTimeout ≤ p.now - started) :
    (p.judged j s started failures (.error e)).state =
      .ended (.error (j.gaveUp (failures + 1) e)) :=
  if_pos h

theorem state_judged_of_early (j : Job) (failures : Nat) (e : Fault)
    (h : ¬ s.retryTimeout ≤ p.now - started) :
    (p.judged j s started failures (.error e)).state =
      .waiting started (failures + 1) (p.now + s.retryInterval) :=
  if_neg h

section

variable (answer : Surroundings σ) (j : Job) (s : ExecutionSettings)

theorem after_add (m n : Nat) (p : Performance σ) :
    after answer j s (m + n) p = after answer j s n (after answer j s m p) := by
  induction m generalizing p with
  | zero => rw [Nat.zero_add, after]
  | succ m ih => rw [Nat.succ_add, after, after, ih]

/-- What every step keeps holds after any steps. -/
theorem after_induction (inv : Performance σ → Prop) (h : inv p)
    (hstep : ∀ p, inv p → inv (next answer j s p)) (n : Nat) : inv (after answer j s n p) := by
  induction n generalizing p with
  | zero => exact h
  | succ n ih => exact ih (hstep p h)

/-- An attempt takes finitely many steps, and time does not go back meanwhile. -/
theorem exists_done {rest : Procedure Scaler (Except Fault Report)}
    (h : p.state = .attempting started failures rest) : ∃ n outcome,
      (after answer j s n p).state = .attempting started failures (.done outcome) ∧
      p.now ≤ (after answer j s n p).now := by
  induction rest generalizing p with
  | done outcome => exact ⟨0, outcome, h, Int.le_refl _⟩
  | ask c rest ih =>
    have hnext : next answer j s p = p.answered answer started failures c rest := by
      rw [next, h]
    have hrest : (p.answered answer started failures c rest).state =
        .attempting started failures (rest (answer c p.now p.surroundings).reply) := rfl
    obtain ⟨n, outcome, hdone, hnow⟩ := ih _ hrest
    refine ⟨n + 1, outcome, ?_⟩
    rw [after, hnext]
    exact ⟨hdone, Int.le_trans (Int.le_add_of_nonneg_right (Int.natCast_nonneg _)) hnow⟩

end

end Performance

/-! ### Rehearsals -/

namespace Rehearsal

/-- How long a call is held up. -/
def delayOf (hitch : Option Hitch) : Nat := (hitch.map (·.delay)).getD 0

/-- A scripted cluster as the surroundings of a task. -/
def ScriptedScaler.surroundings (task : Nat) : Surroundings ScriptedScaler := fun c now s =>
  let (hitch, s) := (s.note now task c).takeHitch (methodOf c)
  let (reply, s) := s.answer hitch c
  ⟨reply, delayOf hitch, s⟩

/-- Whether an execution in a rehearsal stands where a performance does. A call that is held up has
been made already, but is not answered yet; while it is held up, or while it is waited for the next
attempt, time may have gone on. -/
inductive Work.Shows (w : Work) (s : ScriptedScaler) (now : Int)
    (p : Performance ScriptedScaler) : Prop
  | idle (hstate : w.state = p.state) (hheld : w.held = none) (hcluster : s = p.surroundings)
      (hdue : ∀ started failures due, p.state = .waiting started failures due → p.now ≤ due)
      (hnow : now = p.now ∨ ∃ started failures, p.state = .waiting started failures now)
  | held (started : Int) (failures : Nat) (c : ScalerCall)
      (rest : c.Reply → Procedure Scaler (Except Fault Report)) (hitch : Option Hitch)
      (hstate : w.state = p.state) (hask : p.state = .attempting started failures (.ask c rest))
      (hheld : w.held = some (p.now + delayOf hitch, hitch))
      (hcluster : (p.surroundings.note p.now w.task c).takeHitch (methodOf c) = (hitch, s))
      (hnow : now = p.now ∨ now = p.now + delayOf hitch)

variable {settings : ExecutionSettings} {now : Int} {w w' : Work} {s s' : ScriptedScaler}
  {p : Performance ScriptedScaler}

/-- The wait after an attempt is not over before the attempt. -/
theorem le_due_of_judged {j : Job} {started started' : Int} {failures failures' : Nat} {due : Int}
    {outcome : Except Fault Report}
    (h : (p.judged j settings started failures outcome).state = .waiting started' failures' due) :
    p.now ≤ due := by
  cases outcome with
  | ok report => cases h
  | error e =>
    by_cases htimeout : (settings.retryTimeout : Int) ≤ p.now - started
    · rw [Performance.state_judged_of_timeout j failures e htimeout] at h
      cases h
    · rw [Performance.state_judged_of_early j failures e htimeout] at h
      cases h
      exact Int.le_add_of_nonneg_right (Int.natCast_nonneg _)

/-- Making a call does not move the performance; being answered, being judged and waking up do. -/
theorem Work.Shows.step (h : w.Shows s now p) (hstep : w.step settings now s = some (w', s')) :
    (w'.task = w.task ∧ w'.job = w.job) ∧ (w'.Shows s' now p ∨
      w'.Shows s' now (p.next (ScriptedScaler.surroundings w.task) w.job settings)) := by
  -- With both in parts, the two states are one.
  obtain ⟨task, job, state, held⟩ := w
  obtain ⟨pnow, pstate, surroundings, tries, begun, exchanges⟩ := p
  cases h with
  | idle hstate hheld hcluster hdue hnow =>
    obtain rfl : state = pstate := hstate
    obtain rfl : held = none := hheld
    obtain rfl : s = surroundings := hcluster
    cases state with
    | ended outcome => cases hstep
    | waiting started failures due =>
      have hlater : pnow ≤ due := hdue _ _ _ rfl
      simp only [Work.step] at hstep
      split at hstep
      next hreached =>
        have hnow' : now = max pnow due := by
          rcases hnow with hnow | ⟨_, _, hwaiting⟩
          · simp only at hnow
            omega
          · cases hwaiting
            omega
        subst hnow'
        cases hstep
        refine ⟨⟨rfl, rfl⟩, .inr (.idle rfl rfl rfl (fun _ _ _ hwaiting => ?_) (.inl rfl))⟩
        cases (Performance.state_waited _ _).symm.trans hwaiting
      next => cases hstep
    | attempting started failures rest =>
      obtain rfl : now = pnow := by
        rcases hnow with hnow | ⟨_, _, hwaiting⟩
        · exact hnow
        · cases hwaiting
      cases rest with
      | done outcome =>
        cases hstep
        exact ⟨⟨rfl, rfl⟩, .inr (.idle rfl rfl rfl (fun _ _ _ => le_due_of_judged) (.inl rfl))⟩
      | ask c rest =>
        cases hstep
        exact ⟨⟨rfl, rfl⟩, .inl (.held started failures c rest _ rfl rfl rfl rfl (.inl rfl))⟩
  | held started failures c rest hitch hstate hask hheld hcluster hnow =>
    obtain rfl : state = pstate := hstate
    obtain rfl : held = _ := hheld
    obtain rfl : state = _ := hask
    simp only [Work.step] at hstep
    split at hstep
    next hdue =>
      have hanswer : ScriptedScaler.surroundings task c pnow surroundings =
          ⟨(s.answer hitch c).1, delayOf hitch, (s.answer hitch c).2⟩ := by
        simp only at hcluster
        simp only [ScriptedScaler.surroundings, hcluster]
      have hnow' : now = pnow + delayOf hitch := by
        simp only at hnow
        omega
      cases hstep
      refine ⟨⟨rfl, rfl⟩, .inr ?_⟩
      simp only [Performance.next, Performance.answered, hanswer]
      exact .idle rfl rfl rfl (fun _ _ _ hwaiting => nomatch hwaiting) (.inl hnow')
    next => cases hstep

theorem Work.Shows.settle (settings : ExecutionSettings) (n : Nat) (h : w.Shows s now p) :
    ((w.settle settings now n s).1.task = w.task ∧ (w.settle settings now n s).1.job = w.job) ∧
      ∃ k, (w.settle settings now n s).1.Shows (w.settle settings now n s).2 now
        (p.after (ScriptedScaler.surroundings w.task) w.job settings k) := by
  induction n generalizing w s p with
  | zero => exact ⟨⟨rfl, rfl⟩, 0, h⟩
  | succ n ih =>
    unfold Work.settle
    split
    next => exact ⟨⟨rfl, rfl⟩, 0, h⟩
    next w' s' hstep =>
      obtain ⟨⟨htask, hjob⟩, hshows⟩ := h.step hstep
      rw [← htask, ← hjob]
      rcases hshows with hshows | hshows
      · exact ih hshows
      · obtain ⟨hsame, k, hk⟩ := ih hshows
        rw [← htask, ← hjob] at hk
        exact ⟨hsame, k + 1, hk⟩

/-- Time goes on to when something is due. -/
theorem Work.Shows.later (h : w.Shows s now p) {due : Int} (hdue : w.due? = some due) :
    w.Shows s due p := by
  unfold Work.due? at hdue
  cases h with
  | idle hstate hheld hcluster hlater hnow =>
    refine .idle hstate hheld hcluster hlater (.inr ?_)
    split at hdue
    next => cases hdue
    next started failures due' hwaiting =>
      cases hdue
      exact ⟨started, failures, hstate.symm.trans hwaiting⟩
    next =>
      rw [hheld] at hdue
      cases hdue
  | held started failures c rest hitch hstate hask hheld hcluster hnow =>
    rw [hstate, hask, hheld] at hdue
    cases hdue
    exact .held started failures c rest hitch hstate hask hheld hcluster (.inr rfl)

theorem Work.Shows.ended (h : w.Shows s now p) {outcome : Except Fault Report}
    (houtcome : w.outcome? = some outcome) :
    p.state = .ended outcome ∧ p.now = now ∧ p.surroundings = s := by
  unfold Work.outcome? at houtcome
  split at houtcome
  next o hended =>
    cases houtcome
    cases h with
    | idle hstate hheld hcluster hlater hnow =>
      have hp := hstate.symm.trans hended
      refine ⟨hp, ?_, hcluster.symm⟩
      rcases hnow with hnow | ⟨_, _, hwaiting⟩
      · exact hnow.symm
      · cases hp.symm.trans hwaiting
    | held _ _ _ _ _ hstate hask _ _ _ => cases hended.symm.trans (hstate.trans hask)
  next => cases houtcome

theorem Work.Shows.rehearsed {n : Nat} {outcome : Except Fault Report} {now' : Int}
    (h : w.Shows s now p)
    (hrehearsed : rehearseExecution settings n now w s = some (outcome, now', s')) :
    ∃ k q, p.after (ScriptedScaler.surroundings w.task) w.job settings k = q ∧
      q.state = .ended outcome ∧ q.now = now' ∧ q.surroundings = s' := by
  induction n generalizing now w s p with
  | zero => cases hrehearsed
  | succ n ih =>
    obtain ⟨⟨htask, hjob⟩, k, hsettled⟩ := h.settle settings Work.stepBound
    unfold rehearseExecution at hrehearsed
    simp only at hrehearsed
    split at hrehearsed
    next o houtcome =>
      cases hrehearsed
      exact ⟨k, _, rfl, hsettled.ended houtcome⟩
    next due hdue =>
      obtain ⟨k', q, hq, hended⟩ := ih (hsettled.later hdue) hrehearsed
      rw [htask, hjob] at hq
      exact ⟨k + k', q, (Performance.after_add _ _ _ k k' p).trans hq, hended⟩
    next => cases hrehearsed

/-- What an execution comes to in a rehearsal, and when, it comes to amid the scripted cluster. -/
theorem performed_of_rehearseExecution {n task : Nat} {job : Job} {outcome : Except Fault Report}
    {now' : Int} (h : rehearseExecution settings n now (.begin settings now task job) s =
      some (outcome, now', s')) :
    ∃ k q, Performance.after (ScriptedScaler.surroundings task) job settings k
      (.begin job settings now s) = q ∧ q.state = .ended outcome ∧ q.now = now' ∧
        q.surroundings = s' := by
  have hshows : (Work.begin settings now task job).Shows s now (.begin job settings now s) := by
    refine .idle rfl rfl rfl (fun _ _ _ hwaiting => ?_) (.inl rfl)
    simp only [Performance.begin, Job.execute] at hwaiting
    split at hwaiting <;> cases hwaiting
  exact hshows.rehearsed h

end Rehearsal

end CronScale
