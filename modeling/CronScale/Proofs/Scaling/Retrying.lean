import Mathlib.Algebra.BigOperators.Group.List.Basic
import Mathlib.Tactic.Ring
import CronScale.Proofs.Scaling.Performance
/-!
# Repeating failed attempts

An attempt that fails before the retry timeout is over is repeated after the retry interval.
Whatever the attempts come to and however long they take, an execution ends in this way: with the
first attempt that succeeds, or with the first one that fails when the attempts and the waits
between them have taken as long as the retry timeout (`execution_ends`).
-/

namespace CronScale

open CronScale.Calendar

/-- How long some attempts have taken, with the waits between them. -/
def spent (s : ExecutionSettings) (tries : List Try) : Int :=
  (tries.map Try.duration).sum + (tries.length - 1) * s.retryInterval

/-- Whether attempts call for another one: all of them have failed, each before the timeout. -/
structure CallForMore (s : ExecutionSettings) (tries : List Try) : Prop where
  failed : ∀ t ∈ tries, ∃ e, t.outcome = .error e
  early : ∀ first, first <+: tries → first ≠ [] → spent s first < s.retryTimeout

/-- What an execution comes to after some attempts that have called for another one, and that last
one: its report if it has succeeded, and otherwise, with the timeout over, a fault of the execution
that counts all attempts and says why the last one has failed. -/
inductive Concludes (j : Job) (s : ExecutionSettings) (tries : List Try) (last : Try) :
    Except Fault Report → Prop
  | success (report : Report) (houtcome : last.outcome = .ok report) :
      Concludes j s tries last (.ok report)
  | timeout (e fault : Fault) (houtcome : last.outcome = .error e)
      (hspent : s.retryTimeout ≤ spent s (tries ++ [last]))
      (hfault : fault = .gaveUp j.target.kind j.target.name j.target.ns j.desiredSize
        (tries.length + 1) e)
      (hkind : fault.kind = .execution)
      (hmessage : fault.message = "Execution error: " ++ ("failed to scale " ++ j.target.kind ++
        " " ++ j.target.name ++ " in " ++ j.target.ns ++ " namespace to " ++
        toString j.desiredSize ++ " after retrying " ++ toString (tries.length + 1) ++
        " times, because of " ++ e.message)) :
      Concludes j s tries last (.error fault)

/-- Whether every attempt that is over began as soon as the wait after those before it was over. -/
def Spaced (s : ExecutionSettings) (start : Int) (tries : List Try) : Prop :=
  ∀ first t, first ++ [t] <+: tries → t.begun = start + spent s first + s.retryInterval

variable {s : ExecutionSettings} {start : Int} {tries : List Try} {t : Try}

theorem Concludes.gaveUp {last : Try} {e : Fault} (j : Job) (houtcome : last.outcome = .error e)
    (hspent : s.retryTimeout ≤ spent s (tries ++ [last])) :
    Concludes j s tries last (.error (j.gaveUp (tries.length + 1) e)) :=
  .timeout e _ houtcome hspent rfl rfl rfl

theorem spent_append (s : ExecutionSettings) (tries : List Try) (t : Try) :
    spent s (tries ++ [t]) = spent s tries + s.retryInterval + t.duration := by
  simp only [spent, List.map_append, List.sum_append, List.map_singleton, List.sum_singleton,
    List.length_append, List.length_singleton, Int.natCast_add, Int.natCast_one]
  ring

/-- Attempts that took no time were only waited between. -/
theorem spent_of_instant (h : ∀ t ∈ tries, t.ended = t.begun) :
    spent s tries = (tries.length - 1) * s.retryInterval := by
  have hsum : (tries.map Try.duration).sum = 0 := by
    refine List.sum_eq_zero fun d hd => ?_
    obtain ⟨t, ht, rfl⟩ := List.mem_map.1 hd
    rw [Try.duration, h t ht, Int.sub_self]
  rw [spent, hsum, Int.zero_add]

theorem CallForMore.nil (s : ExecutionSettings) : CallForMore s [] where
  failed := fun _ ht => absurd ht List.not_mem_nil
  early := fun _ hfirst hne => absurd (List.prefix_nil.1 hfirst) hne

theorem CallForMore.append (h : CallForMore s tries) {e : Fault} (hfailed : t.outcome = .error e)
    (hearly : spent s (tries ++ [t]) < s.retryTimeout) : CallForMore s (tries ++ [t]) where
  failed := by
    intro t' ht'
    rcases List.mem_append.1 ht' with ht' | ht'
    · exact h.failed t' ht'
    · exact ⟨e, List.mem_singleton.1 ht' ▸ hfailed⟩
  early := by
    intro first hfirst hne
    rcases List.prefix_concat_iff.1 hfirst with rfl | hfirst
    · exact hearly
    · exact h.early first hfirst hne

/-- The next attempt begins before the timeout and an interval are over. -/
theorem CallForMore.spent_lt (h : CallForMore s tries) (hinterval : 0 < s.retryInterval)
    {first : List Try} (hfirst : first <+: tries) : spent s first < s.retryTimeout := by
  by_cases hnil : first = []
  · subst hnil
    simp only [spent, List.map_nil, List.sum_nil, List.length_nil]
    omega
  · exact h.early first hfirst hnil

theorem Spaced.append (h : Spaced s start tries)
    (hbegun : t.begun = start + spent s tries + s.retryInterval) :
    Spaced s start (tries ++ [t]) := by
  intro first t' hfirst
  rcases concat_prefix_concat hfirst with ⟨rfl, rfl⟩ | hfirst
  · exact hbegun
  · exact h first t' hfirst

theorem Spaced.begun_lt {last : Try} (h : Spaced s start (tries ++ [last]))
    (hmore : CallForMore s tries) (hinterval : 0 < s.retryInterval)
    (ht : t ∈ tries ++ [last]) : t.begun < start + s.retryTimeout + s.retryInterval := by
  obtain ⟨first, rest, hsplit⟩ := List.append_of_mem ht
  have hfirst : first ++ [t] <+: tries ++ [last] := ⟨rest, by simp [hsplit]⟩
  have hbefore : first <+: tries := by
    rcases concat_prefix_concat hfirst with ⟨rfl, rfl⟩ | hfirst
    · exact List.prefix_rfl
    · exact (List.prefix_append first [t]).trans hfirst
  have hbegun := h first t hfirst
  have hspent := hmore.spent_lt hinterval hbefore
  omega

namespace Performance

variable {σ : Type} {answer : Surroundings σ} {j : Job} {p : Performance σ}

/-- Where a performance stands that was begun at a time. -/
def Stands (j : Job) (s : ExecutionSettings) (start : Int) (p : Performance σ) : Prop :=
  match p.state with
  | .attempting started failures _ => started = start ∧ failures = p.tries.length ∧
    CallForMore s p.tries ∧ p.begun = start + spent s p.tries + s.retryInterval
  | .waiting started failures due => started = start ∧ failures = p.tries.length ∧
    CallForMore s p.tries ∧ due = start + spent s p.tries + s.retryInterval ∧ p.now ≤ due
  | .ended outcome => ∃ tries last, p.tries = tries ++ [last] ∧ CallForMore s tries ∧
    p.now = start + spent s p.tries ∧ Concludes j s tries last outcome

theorem stands_begin (s : ExecutionSettings) (start : Int) (w : σ)
    (hopen : Schedule.excludedBy j.excludeDates s.zone (Instant.ofMillis start) = none) :
    (begin j s start w).Stands j s start ∧ Spaced s start (begin j s start w).tries := by
  refine ⟨?_, fun first t hfirst => absurd (List.prefix_nil.1 hfirst) (by simp)⟩
  rw [Stands, state_begin hopen]
  refine ⟨rfl, rfl, .nil s, ?_⟩
  simp only [begin, spent, List.map_nil, List.sum_nil, List.length_nil]
  omega

/-- An attempt that is judged is the last one, or it is waited until the next one is due. -/
theorem stands_judged (hmore : CallForMore s p.tries)
    (hbegun : p.begun = start + spent s p.tries + s.retryInterval)
    (outcome : Except Fault Report) :
    (p.judged j s start p.tries.length outcome).Stands j s start := by
  have hspent : spent s (p.judged j s start p.tries.length outcome).tries = p.now - start := by
    have happend := spent_append s p.tries ⟨p.begun, p.exchanges, p.now, outcome⟩
    simp only [Try.duration] at happend
    simp only [judged]
    omega
  have hnow : p.now = start + spent s (p.judged j s start p.tries.length outcome).tries := by
    omega
  cases outcome with
  | ok report => exact ⟨p.tries, _, rfl, hmore, hnow, .success report rfl⟩
  | error e =>
    by_cases htimeout : (s.retryTimeout : Int) ≤ p.now - start
    · rw [Stands, state_judged_of_timeout j p.tries.length e htimeout]
      exact ⟨p.tries, _, rfl, hmore, hnow, .gaveUp j rfl (hspent ▸ htimeout)⟩
    · have hlength : p.tries.length + 1 =
          (p.judged j s start p.tries.length (.error e)).tries.length := by
        rw [judged, List.length_append, List.length_singleton]
      rw [Stands, state_judged_of_early j p.tries.length e htimeout]
      refine ⟨rfl, hlength, hmore.append rfl (hspent ▸ Int.not_le.1 htimeout), ?_,
        Int.le_add_of_nonneg_right (Int.natCast_nonneg _)⟩
      rw [← hnow]

theorem Stands.next (h : p.Stands j s start ∧ Spaced s start p.tries) :
    (next answer j s p).Stands j s start ∧ Spaced s start (next answer j s p).tries := by
  obtain ⟨hstands, hspaced⟩ := h
  rw [Stands] at hstands
  split at hstands
  next started failures rest hstate =>
    obtain ⟨rfl, rfl, hmore, hbegun⟩ := hstands
    rw [Performance.next, hstate]
    cases rest with
    | ask c rest => exact ⟨⟨rfl, rfl, hmore, hbegun⟩, hspaced⟩
    | done outcome => exact ⟨stands_judged hmore hbegun outcome, hspaced.append hbegun⟩
  next started failures due hstate =>
    obtain ⟨rfl, rfl, hmore, hdue, hnow⟩ := hstands
    rw [Performance.next, hstate]
    refine ⟨?_, hspaced⟩
    rw [Stands, state_waited]
    exact ⟨rfl, rfl, hmore, (Int.max_eq_right hnow).trans hdue⟩
  next outcome hstate =>
    rw [Performance.next, hstate]
    refine ⟨?_, hspaced⟩
    rw [Stands, hstate]
    exact hstands

/-- An execution with an attempt under way ends, or another attempt begins, which is an interval
later at least and before the timeout and an interval are over. -/
theorem exists_ended_or_again (answer : Surroundings σ) {failures : Nat}
    {rest : Procedure Scaler (Except Fault Report)}
    (h : p.state = .attempting start failures rest) :
    (∃ n outcome, (after answer j s n p).state = .ended outcome) ∨
      ∃ n, (after answer j s n p).state = .attempting start (failures + 1) j.attempt ∧
        p.now + s.retryInterval ≤ (after answer j s n p).now ∧
        (after answer j s n p).now < start + s.retryTimeout + s.retryInterval := by
  obtain ⟨n, outcome, hdone, hnow⟩ := exists_done answer j s h
  generalize hq : after answer j s n p = q at hdone hnow
  have hjudged : next answer j s q = q.judged j s start failures outcome := by
    rw [next, hdone]
  cases outcome with
  | ok report =>
    refine .inl ⟨n + 1, .ok report, ?_⟩
    rw [after_add, hq, after, hjudged]
    rfl
  | error e =>
    by_cases htimeout : (s.retryTimeout : Int) ≤ q.now - start
    · refine .inl ⟨n + 1, .error (j.gaveUp (failures + 1) e), ?_⟩
      rw [after_add, hq, after, hjudged]
      exact state_judged_of_timeout j failures e htimeout
    · have hwaiting := state_judged_of_early j failures e htimeout
      have hwaited : ((q.judged j s start failures (.error e)).waited j s start (failures + 1)
          (q.now + s.retryInterval)).now = q.now + s.retryInterval :=
        Int.max_eq_right (Int.le_add_of_nonneg_right (Int.natCast_nonneg _))
      refine .inr ⟨n + 2, ?_⟩
      rw [after_add, hq, after, hjudged, after, next, hwaiting, after, hwaited]
      exact ⟨state_waited _ _, by omega, by omega⟩

/-- The induction is on the time that is left for attempts to begin. -/
theorem exists_ended (answer : Surroundings σ) (hinterval : 0 < s.retryInterval) (left : Nat)
    {failures : Nat} {rest : Procedure Scaler (Except Fault Report)}
    (h : p.state = .attempting start failures rest)
    (hleft : start + s.retryTimeout + s.retryInterval ≤ p.now + left) :
    ∃ n outcome, (after answer j s n p).state = .ended outcome := by
  induction left generalizing p failures rest with
  | zero =>
    rcases exists_ended_or_again answer h with hended | ⟨n, -, hlater, hearly⟩
    · exact hended
    · omega
  | succ left ih =>
    rcases exists_ended_or_again answer h with hended | ⟨n, hagain, hlater, -⟩
    · exact hended
    · obtain ⟨m, outcome, hended⟩ := ih hagain (by omega)
      exact ⟨n + m, outcome, by rw [after_add, hended]⟩

end Performance

/-- How many instantaneous attempts reach the timeout first, with the waits between them. -/
theorem length_of_instant (hinterval : 0 < s.retryInterval) (hmore : CallForMore s tries)
    (hspent : s.retryTimeout ≤ spent s (tries ++ [t]))
    (hinstant : ∀ t' ∈ tries ++ [t], t'.ended = t'.begun) :
    (tries ++ [t]).length =
      (s.retryTimeout + s.retryInterval - 1) / s.retryInterval + 1 := by
  have hearly := hmore.spent_lt hinterval List.prefix_rfl
  rw [spent_of_instant fun t' ht' => hinstant t' (List.mem_append_left _ ht'), Int.sub_mul,
    Int.one_mul] at hearly
  rw [spent_of_instant hinstant, List.length_append, List.length_singleton, Int.natCast_add,
    Int.natCast_one, Int.add_sub_cancel] at hspent
  rw [List.length_append, List.length_singleton]
  congr 1
  -- Both bounds are products with the interval, which is all that is needed of them.
  refine (Nat.div_eq_of_lt_le ?_ ?_).symm
  · omega
  · rw [Nat.succ_mul]
    omega

/-- Surroundings that refuse every call, with some delay. -/
def refusing (e : Fault) (delay : Nat) : Surroundings Unit :=
  fun c _ _ => ⟨Rehearsal.ScriptedScaler.refuse e c, delay, ()⟩

/-- A job that never rests. -/
def steadyJob : Job :=
  { id := "job-1", name := "up", schedule := "0 0 8 * * *", desiredSize := 5, runOnce := false
    excludeDates := [], owner := ⟨"default", "web"⟩
    target := ⟨"web", "default", "Deployment", "apps", "v1"⟩ }

end CronScale
