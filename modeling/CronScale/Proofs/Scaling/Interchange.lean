import CronScale.Manager.Basic
import CronScale.Proofs.Engine.Relabelling
import CronScale.Proofs.Outcomes
import CronScale.Proofs.Scaling.Retrying
import CronScale.Proofs.Text.Reading
/-!
# Jobs that may stand for one another

A queued job is kept if the job that is brought in does not differ from it. For the engine the one
may indeed stand for the other. For the cluster it may if both have the same target; but targets are
compared by their parts in one text, with a colon between neighbours, and a part may hold a colon
itself. The text tells targets apart as long as the parts of one of them hold none
(`TargetRef.Plain.eq_of_identity`). If parts hold colons, a job can be kept for another one that
would scale something else (`colon_target_kept`).
-/

namespace CronScale

open CronScale.Calendar

/-! ### Targets -/

namespace TargetRef

variable {t u : TargetRef}

/-- The parts of a reference in the order in which they are compared. -/
def parts (t : TargetRef) : List (List Char) :=
  [t.name.toList, t.ns.toList, t.kind.toList, t.group.toList, t.version.toList]

/-- Whether no part holds the sign that stands between the parts. -/
def Plain (t : TargetRef) : Prop := ∀ part ∈ t.parts, ':' ∉ part

/-- Whether two references lead to the same object: the group and the version of an autoscaler play
no part in how it is reached. -/
def SameObject (t u : TargetRef) : Prop :=
  t = u ∨ t.isAutoscaler = true ∧ u.isAutoscaler = true ∧ t.ns = u.ns ∧ t.name = u.name

theorem eq_of_parts (h : t.parts = u.parts) : t = u := by
  cases t
  cases u
  simpa only [parts, List.cons.injEq, String.toList_inj, and_true, mk.injEq] using h

theorem parts_ne_nil (t : TargetRef) : t.parts ≠ [] := List.cons_ne_nil _ _

theorem toList_identity (t : TargetRef) : t.identity.toList = List.intercalate [':'] t.parts := by
  have hcolon : ":".toList = [':'] := rfl
  simp only [identity, parts, String.toList_append, hcolon, List.intercalate_cons_cons,
    List.intercalate_singleton, List.append_assoc]

theorem count_identity (t : TargetRef) :
    t.identity.toList.count ':' = (t.parts.map (List.count ':')).sum + 4 := by
  rw [toList_identity]
  simp only [parts, List.intercalate_cons_cons, List.intercalate_singleton, List.count_append,
    List.count_singleton_self, List.map_cons, List.map_nil, List.sum_cons, List.sum_nil]
  omega

theorem plain_iff_count : t.Plain ↔ t.identity.toList.count ':' = 4 := by
  have hcounts : t.Plain ↔ ∀ part ∈ t.parts, part.count ':' = 0 :=
    forall₂_congr fun _ _ => List.count_eq_zero.symm
  rw [hcounts, count_identity]
  simp only [parts, List.forall_mem_cons, List.map_cons, List.map_nil, List.sum_cons, List.sum_nil,
    List.not_mem_nil, false_implies, implies_true, and_true]
  omega

/-- One of the two without the sign is enough: the text of the other one holds no more of them. -/
theorem Plain.eq_of_identity (ht : t.Plain) (h : t.identity = u.identity) : t = u := by
  have hu : u.Plain := by
    rw [plain_iff_count, ← h]
    exact plain_iff_count.1 ht
  apply eq_of_parts
  have hpieces := congrArg (fun s => Text.splitOn ':' s.toList) h
  simp only [toList_identity] at hpieces
  rwa [Text.splitOn_intercalate t.parts_ne_nil ht, Text.splitOn_intercalate u.parts_ne_nil hu]
    at hpieces

end TargetRef

/-! ### What is asked of the cluster -/

namespace Job

variable {a b : Job}

theorem differsFrom_eq_false_iff : a.differsFrom b = false ↔
    a.id = b.id ∧ a.schedule = b.schedule ∧ a.target.identity = b.target.identity ∧
      a.desiredSize = b.desiredSize ∧ a.runOnce = b.runOnce ∧ a.excludeDates = b.excludeDates := by
  simp only [differsFrom, agrees, Bool.or_eq_false_iff, Bool.not_eq_false', Bool.and_eq_true,
    beq_iff_eq, bne_eq_false_iff_eq, and_assoc]

/-- What is asked first in every attempt. -/
def firstCall (j : Job) : ScalerCall :=
  if j.target.isAutoscaler then .getAutoscaler j.target.ns j.target.name else .getScale j.target

theorem exists_attempt_eq_ask (j : Job) : ∃ rest, j.attempt = .ask j.firstCall rest := by
  rw [attempt, firstCall]
  by_cases hautoscaler : j.target.isAutoscaler = true
  · rw [if_pos hautoscaler, if_pos hautoscaler]
    exact ⟨_, rfl⟩
  · rw [if_neg hautoscaler, if_neg hautoscaler]
    exact ⟨_, rfl⟩

theorem firstCall_eq_iff : a.firstCall = b.firstCall ↔ a.target.SameObject b.target := by
  unfold firstCall TargetRef.SameObject
  cases ha : a.target.isAutoscaler <;> cases hb : b.target.isAutoscaler
  · simp
  · have hne : a.target ≠ b.target := fun heq => by simp [heq, hb] at ha
    simp [hne]
  · have hne : a.target ≠ b.target := fun heq => by simp [heq, hb] at ha
    simp [hne]
  · have hparts : a.target = b.target → a.target.ns = b.target.ns ∧ a.target.name = b.target.name :=
      fun heq => ⟨congrArg TargetRef.ns heq, congrArg TargetRef.name heq⟩
    simp only [if_true, ScalerCall.getAutoscaler.injEq, true_and]
    exact ⟨.inr, fun h => h.elim hparts fun hsame => hsame⟩

/-- Whether carrying out one job is carrying out the other one. -/
structure SameTask (a b : Job) : Prop where
  excludeDates : a.excludeDates = b.excludeDates
  attempt : a.attempt = b.attempt
  gaveUp : ∀ attempts last, a.gaveUp attempts last = b.gaveUp attempts last

theorem SameTask.of_sameObject (hobject : a.target.SameObject b.target)
    (hsize : a.desiredSize = b.desiredSize) (hdates : a.excludeDates = b.excludeDates) :
    a.SameTask b := by
  obtain ⟨_, _, _, size, _, _, _, t⟩ := a
  obtain ⟨_, _, _, size', _, _, _, u⟩ := b
  obtain rfl : size = size' := hsize
  rcases hobject with htarget | ⟨ht, hu, hns, hname⟩
  · obtain rfl : t = u := htarget
    exact ⟨hdates, rfl, fun _ _ => rfl⟩
  · obtain ⟨name, ns, kind, group, version⟩ := t
    obtain ⟨name', ns', kind', group', version'⟩ := u
    simp only [TargetRef.isAutoscaler, beq_iff_eq] at ht hu hns hname
    subst ht hu hns hname
    exact ⟨hdates, rfl, fun _ _ => rfl⟩

end Job

/-! ### Executions -/

namespace Performance

variable {σ : Type} {answer : Surroundings σ} {s : ExecutionSettings} {a b j : Job} {now : Int}

theorem begin_congr (h : a.SameTask b) (s : ExecutionSettings) (now : Int) (w : σ) :
    begin a s now w = begin b s now w := by
  simp only [begin, Job.execute, h.excludeDates, h.attempt]

theorem next_congr (h : a.SameTask b) (p : Performance σ) :
    next answer a s p = next answer b s p := by
  unfold next
  split
  · rfl
  · simp only [judged, Execution.settle, Job.afterAttempt, h.gaveUp]
  · simp only [waited, Execution.settle, h.attempt]
  · rfl

theorem after_congr (h : a.SameTask b) (n : Nat) (p : Performance σ) :
    after answer a s n p = after answer b s n p := by
  induction n generalizing p with
  | zero => rfl
  | succ n ih => rw [after, after, next_congr h, ih]

theorem after_of_ended {outcome : Except Fault Report} {p : Performance σ}
    (h : p.state = .ended outcome) (n : Nat) : after answer j s n p = p := by
  induction n with
  | zero => rfl
  | succ n ih =>
    have hnext : next answer j s p = p := by rw [next, h]
    rw [after, hnext, ih]

theorem calls_of_first
    (hopen : Schedule.excludedBy j.excludeDates s.zone (Instant.ofMillis now) = none) (w : σ) :
    (after answer j s 1 (begin j s now w)).exchanges.map Exchange.call = [j.firstCall] := by
  obtain ⟨rest, hattempt⟩ := j.exists_attempt_eq_ask
  have hstate := state_begin hopen w
  rw [hattempt] at hstate
  rw [after, after, next, hstate]
  rfl

/-- Two jobs that ask for the same size and rest on the same days are carried out alike exactly if
they rest at that time or lead to the same object. -/
theorem after_eq_iff (hsize : a.desiredSize = b.desiredSize)
    (hdates : a.excludeDates = b.excludeDates) (s : ExecutionSettings) (now : Int) :
    (∀ (σ : Type) (answer : Surroundings σ) (w : σ) n,
      after answer b s n (.begin b s now w) = after answer a s n (.begin a s now w)) ↔
    Schedule.excludedBy a.excludeDates s.zone (Instant.ofMillis now) ≠ none ∨
      a.target.SameObject b.target := by
  constructor
  · intro hsame
    by_cases hopen : Schedule.excludedBy a.excludeDates s.zone (Instant.ofMillis now) = none
    · right
      -- The first call tells them apart, whatever it is answered.
      have hone := hsame Unit (refusing (.missing "") 0) () 1
      have hcalls := congrArg (fun p => p.exchanges.map Exchange.call) hone
      simp only [calls_of_first hopen, calls_of_first (hdates ▸ hopen), List.cons.injEq,
        and_true] at hcalls
      exact Job.firstCall_eq_iff.1 hcalls.symm
    · exact .inl hopen
  · intro h σ answer w n
    rcases h with hrests | hobject
    · obtain ⟨expr, hexpr⟩ := Option.ne_none_iff_exists'.1 hrests
      have ha : begin a s now w = ⟨now, .ended (.ok (.rested expr)), w, [], now, []⟩ := by
        simp only [begin, Job.execute, hexpr]
      have hb : begin b s now w = ⟨now, .ended (.ok (.rested expr)), w, [], now, []⟩ := by
        simp only [begin, Job.execute, ← hdates, hexpr]
      rw [ha, hb, after_of_ended rfl, after_of_ended rfl]
    · have htask := Job.SameTask.of_sameObject hobject hsize hdates
      rw [← begin_congr htask, ← after_congr htask]

end Performance

/-! ### Queued jobs that are kept -/

/-- A job, or another one in the place of one. -/
def Job.insteadOf (b a j : Job) : Job := if j = a then b else j

theorem Job.insteadOf_congr {α : Type} {a b : Job} {g : Job → α} (h : g a = g b) (j : Job) :
    g (b.insteadOf a j) = g j := by
  unfold insteadOf
  split
  next heq => rw [heq, h]
  next => rfl

theorem Job.keeps_insteadOf {a b : Job} (h : a.differsFrom b = false) :
    Schedulable.Keeps (b.insteadOf a) := by
  obtain ⟨hid, hschedule, _, _, hrunOnce, _⟩ := differsFrom_eq_false_iff.1 h
  constructor
  · exact insteadOf_congr hid
  · exact insteadOf_congr hschedule
  · exact insteadOf_congr hrunOnce

/-- Let a job not differ from another one. Then an engine into which the other one was put wherever
the job was fires at the same times, whatever else is in its agenda and whatever is called, and then
fires the other one where the first would be fired. Begun at the same time amid the same
surroundings, both come to the same, call by call, exactly if they rest at that time or their
targets lead to the same object. This is so if no part of the first target holds a colon, for then
the targets are the same. -/
theorem kept_job_runs_alike {a b : Job} (h : a.differsFrom b = false) :
    (∀ (evs : List (Engine.Event Job)) (w : Engine.Timed Job),
      Engine.Timed.run? (evs.map (Engine.Event.map (b.insteadOf a))) (w.map (b.insteadOf a)) =
        (Engine.Timed.run? evs w).map fun r =>
          (r.1.map (b.insteadOf a), r.2.map (Engine.Turn.map (b.insteadOf a)))) ∧
    (∀ s now, (∀ (σ : Type) (answer : Surroundings σ) (w : σ) n,
        Performance.after answer b s n (.begin b s now w) =
          Performance.after answer a s n (.begin a s now w)) ↔
      Schedule.excludedBy a.excludeDates s.zone (Instant.ofMillis now) ≠ none ∨
        a.target.SameObject b.target) ∧
    (a.target.Plain → a.target = b.target) := by
  obtain ⟨_, _, hidentity, hsize, _, hdates⟩ := Job.differsFrom_eq_false_iff.1 h
  refine ⟨?_, ?_, ?_⟩
  · exact Engine.Timed.run?_map (Job.keeps_insteadOf h)
  · exact Performance.after_eq_iff hsize hdates
  · intro hplain
    exact hplain.eq_of_identity hidentity

/-- A job for eight o'clock as a resource asks for it. -/
def opening (name : String) (target : TargetSpec) (id : String) : Except Fault Job :=
  Job.build ⟨{ name := some "web", ns := some "default" }, ⟨[], target, []⟩, none⟩
    ⟨name, "0 0 8 * * *", false, 5⟩ id

/-- Under another name a job is carried out as before. -/
theorem renamed_job_runs_alike : ∃ renamed,
    opening "up" ⟨"apps/v1", "Deployment", "web"⟩ "job-1" = .ok steadyJob ∧
    opening "open" ⟨"apps/v1", "Deployment", "web"⟩ "job-1" = .ok renamed ∧
    steadyJob ≠ renamed ∧ steadyJob.differsFrom renamed = false ∧
    ∀ s now (σ : Type) (answer : Surroundings σ) (w : σ) n,
      Performance.after answer renamed s n (.begin renamed s now w) =
        Performance.after answer steadyJob s n (.begin steadyJob s now w) := by
  have hdiffers : steadyJob.differsFrom { steadyJob with name := "open" } = false := by
    decide +kernel
  have hplain : steadyJob.target.Plain := by
    unfold TargetRef.Plain
    decide +kernel
  refine ⟨{ steadyJob with name := "open" }, ?_, ?_, by decide, hdiffers, ?_⟩
  · exact eq_ok_of_toOption (by decide +kernel)
  · exact eq_ok_of_toOption (by decide +kernel)
  · intro s now
    have halike := kept_job_runs_alike hdiffers
    exact (halike.2.1 s now).2 (.inr (.inl (halike.2.2 hplain)))

/-- The colon between kind and group of the first target, which is an autoscaler, lies within the
kind of the second one, which is none. -/
theorem colon_target_kept : ∃ a b,
    opening "up" ⟨"autoscaling:extra/v2", "HorizontalPodAutoscaler", "web"⟩ "job-1" = .ok a ∧
    opening "up" ⟨"extra/v2", "HorizontalPodAutoscaler:autoscaling", "web"⟩ "job-1" = .ok b ∧
    a.differsFrom b = false ∧
    ∀ s now (σ : Type) (answer : Surroundings σ) (w : σ),
      (Performance.after answer a s 1 (.begin a s now w)).exchanges.map Exchange.call =
        [.getAutoscaler "default" "web"] ∧
      (Performance.after answer b s 1 (.begin b s now w)).exchanges.map Exchange.call =
        [.getScale ⟨"web", "default", "HorizontalPodAutoscaler:autoscaling", "extra", "v2"⟩] := by
  refine ⟨{ steadyJob with
      target := ⟨"web", "default", "HorizontalPodAutoscaler", "autoscaling:extra", "v2"⟩ },
    { steadyJob with
      target := ⟨"web", "default", "HorizontalPodAutoscaler:autoscaling", "extra", "v2"⟩ },
    ?_, ?_, ?_, ?_⟩
  · exact eq_ok_of_toOption (by decide +kernel)
  · exact eq_ok_of_toOption (by decide +kernel)
  · decide +kernel
  · intro s now σ answer w
    constructor
    · exact Performance.calls_of_first rfl w
    · exact Performance.calls_of_first rfl w

end CronScale
