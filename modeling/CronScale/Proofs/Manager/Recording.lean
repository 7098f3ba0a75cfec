import CronScale.Manager.Record
import CronScale.Proofs.Exchanges
/-!
# How an outcome is recorded

Whatever the home of the resources answers, a recording is a sequence of attempts. Each of them
fetches the resource and, if it gets a copy, writes a status that is computed from this copy against
the version of this copy. The sequence ends with the first attempt that settles the matter, because
the status is written or the resource is gone, and otherwise when the attempts are used up. Then at
most one event is made known: that of the outcome, or that of the last write that failed.
-/

namespace CronScale

open CronScale.Calendar

namespace Record

/-- What came of an attempt to write a condition. -/
inductive Attempt where
  | unfetched (e : Fault)
  | gone
  | refused (copy : Resource) (e : Fault)
  | written (copy : Resource)

namespace Attempt

/-- Whether no attempt is made after this one. -/
def settles : Attempt → Bool
  | unfetched _ => false
  | gone => true
  | refused _ e => e.isMissing
  | written _ => true

/-- The write that failed, if that is what came of an attempt. -/
def refusal? : Attempt → Option (Resource × Fault)
  | refused copy e => some (copy, e)
  | _ => none

def fetching (owner : OwnerKey) (answer : Except Fault (Option Resource)) : Exchange Desk :=
  ⟨.store (.fetch owner), answer⟩

/-- The write of the status of a copy, or of the initial one where it has none, with a condition
merged into its conditions, against the version of the copy. -/
def writing (owner : OwnerKey) (c : Condition) (copy : Resource) (answer : Except Fault Unit) :
    Exchange Desk :=
  let s := copy.status.getD .initial
  ⟨.store (.patchStatus owner { s with conditions := c.mergeByJob s.conditions }
    copy.metadata.resourceVersion), answer⟩

/-- What is asked and answered in an attempt. -/
def exchanges (owner : OwnerKey) (c : Condition) : Attempt → List (Exchange Desk)
  | unfetched e => [fetching owner (.error e)]
  | gone => [fetching owner (.ok none)]
  | refused copy e => [fetching owner (.ok (some copy)), writing owner c copy (.error e)]
  | written copy => [fetching owner (.ok (some copy)), writing owner c copy (.ok ())]

end Attempt

/-- Whether attempts are all that a recording makes which has a number of them to make: only the
last one can have settled the matter, and if it has not, they are used up. -/
structure Complete (n : Nat) (tries : List Attempt) : Prop where
  within : tries.length ≤ n
  goesOn : ∀ a ∈ tries.dropLast, a.settles = false
  stops : tries.length = n ∨ ∃ a ∈ tries.getLast?, a.settles = true

/-- The last write that failed. -/
def lastRefusal (tries : List Attempt) : Option (Resource × Fault) :=
  (tries.filterMap Attempt.refusal?).getLast?

/-- What is made known after some attempts, and about which copy of the resource: the event of the
outcome if the status was written, nothing if the resource was found to be gone, and otherwise the
last write that failed. There may be one that failed before the attempts. -/
def news (event : Event) (before : Option (Resource × Fault)) (tries : List Attempt) :
    Option (Resource × Event) :=
  match tries.find? Attempt.settles with
  | some (.written copy) => some (copy, event)
  | some _ => none
  | none => ((lastRefusal tries).or before).map fun last => (last.1, failureEvent last.2)

def publishing (n : Resource × Event) : Exchange Desk := ⟨.store (.publish n.1 n.2), ()⟩

/-- What an outcome is recorded as: its state, and the event that makes it known. -/
inductive Tells (name : String) : Except Fault String → JobState → Event → Prop
  | success (report : String) : Tells name (.ok report) .succeed
      ⟨.normal, "Succeed", "cron hpa job " ++ name ++ " executed successfully. " ++ report⟩
  | failure (e : Fault) : Tells name (.error e) .failed
      ⟨.warning, "Failed", "cron hpa failed to execute, because of " ++ e.message⟩

theorem tells_eventOf (job : Job) (outcome : Except Fault String) :
    Tells job.name outcome (stateOf outcome) (eventOf job outcome) := by
  cases outcome with
  | ok report => exact .success report
  | error e => exact .failure e

theorem Complete.single {n : Nat} {a : Attempt} (h : a.settles = true) : Complete (n + 1) [a] where
  within := Nat.le_add_left 1 n
  goesOn := fun _ hb => absurd hb List.not_mem_nil
  stops := .inr ⟨a, rfl, h⟩

theorem Complete.cons {n : Nat} {a : Attempt} {tries : List Attempt} (h : Complete n tries)
    (ha : a.settles = false) : Complete (n + 1) (a :: tries) where
  within := Nat.succ_le_succ h.within
  goesOn := by
    intro b hb
    cases tries with
    | nil => exact absurd hb List.not_mem_nil
    | cons a' tries =>
      rcases List.mem_cons.1 hb with rfl | hb
      · exact ha
      · exact h.goesOn b hb
  stops := by
    rcases h.stops with hlength | ⟨b, hb, hsettles⟩
    · exact .inl (congrArg Nat.succ hlength)
    · cases tries with
      | nil => exact absurd hb (by simp)
      | cons a' tries => exact .inr ⟨b, hb, hsettles⟩

theorem news_cons {event : Event} {before : Option (Resource × Fault)} {a : Attempt}
    {tries : List Attempt} (ha : a.settles = false) :
    news event before (a :: tries) = news event (a.refusal?.or before) tries := by
  have hlast : (lastRefusal (a :: tries)).or before =
      (lastRefusal tries).or (a.refusal?.or before) := by
    unfold lastRefusal
    cases hrefusal : a.refusal? with
    | none => rw [List.filterMap_cons_none hrefusal, Option.none_or]
    | some last =>
      rw [List.filterMap_cons_some hrefusal, List.getLast?_cons]
      cases (tries.filterMap Attempt.refusal?).getLast? <;> rfl
  rw [news, news, List.find?_cons_of_neg (by simp [ha]), hlast]

section

variable {β : Type} (owner : OwnerKey) (c : Condition) (answers : Nat → (c : DeskCall) → c.Reply)

theorem exchanges_fetch (f : Except Fault (Option Resource) → Procedure Desk β) :
    (Desk.fetch owner >>= f).exchanges answers =
      Attempt.fetching owner (answers 0 (.store (.fetch owner))) ::
        (f (answers 0 (.store (.fetch owner)))).exchanges fun i => answers (i + 1) :=
  rfl

theorem exchanges_patchStatus (s : Status) (version : Option String)
    (f : Except Fault Unit → Procedure Desk β) :
    (Desk.patchStatus owner s version >>= f).exchanges answers =
      ⟨.store (.patchStatus owner s version), answers 0 (.store (.patchStatus owner s version))⟩ ::
        (f (answers 0 (.store (.patchStatus owner s version)))).exchanges
          fun i => answers (i + 1) :=
  rfl

/-- The attempts that are made when calls are answered in some way; before them, a write may have
failed. -/
theorem exists_attempts (event : Event) (n : Nat) (before : Option (Resource × Fault)) :
    ∃ tries, Complete n tries ∧ (attempts owner c event n before).exchanges answers =
      tries.flatMap (Attempt.exchanges owner c) ++
        (news event before tries).toList.map publishing := by
  induction n generalizing before answers with
  | zero =>
    refine ⟨[], ⟨Nat.le_refl 0, fun _ ha => absurd ha List.not_mem_nil, .inl rfl⟩, ?_⟩
    cases before with
    | none => rfl
    | some last => rfl
  | succ n ih =>
    rw [attempts, exchanges_fetch]
    match answers 0 (.store (.fetch owner)) with
    | .error e =>
      obtain ⟨tries, hcomplete, hexchanges⟩ := ih (fun i => answers (i + 1)) before
      refine ⟨.unfetched e :: tries, hcomplete.cons rfl, ?_⟩
      rw [news_cons rfl, List.flatMap_cons, List.append_assoc]
      exact congrArg (List.cons _) hexchanges
    | .ok none => exact ⟨[.gone], .single rfl, rfl⟩
    | .ok (some copy) =>
      simp only [exchanges_patchStatus]
      match answers 1 (.store (.patchStatus owner (merged (copy.status.getD .initial) c)
        copy.metadata.resourceVersion)) with
      | .ok () => exact ⟨[.written copy], .single rfl, rfl⟩
      | .error e =>
        have hsettles : (Attempt.refused copy e).settles = e.isMissing := rfl
        cases hmissing : e.isMissing with
        | true =>
          rw [hmissing] at hsettles
          have hnews : news event before [.refused copy e] = none := by
            rw [news, List.find?_cons_of_pos hsettles]
          refine ⟨[.refused copy e], .single hsettles, ?_⟩
          simp only [hmissing, if_true, hnews]
          rfl
        | false =>
          rw [hmissing] at hsettles
          obtain ⟨tries, hcomplete, hexchanges⟩ :=
            ih (fun i => answers (i + 2)) (some (copy, e))
          refine ⟨.refused copy e :: tries, hcomplete.cons hsettles, ?_⟩
          simp only [hmissing, Bool.false_eq_true, if_false]
          rw [news_cons hsettles, List.flatMap_cons, List.append_assoc]
          exact congrArg (fun es => _ :: _ :: es) hexchanges

end

/-! ### What the attempts come to -/

def isFetch : Exchange Desk → Bool
  | ⟨.store (.fetch _), _⟩ => true
  | _ => false

/-- Whether a status is written. -/
def lands : Exchange Desk → Bool
  | ⟨.store (.patchStatus _ _ _), .ok ()⟩ => true
  | _ => false

variable {owner : OwnerKey} {c : Condition} {n : Nat} {tries : List Attempt}

theorem countP_isFetch (tries : List Attempt) :
    (tries.flatMap (Attempt.exchanges owner c)).countP isFetch = tries.length := by
  induction tries with
  | nil => rfl
  | cons a tries ih =>
    have ha : (a.exchanges owner c).countP isFetch = 1 := by cases a <;> rfl
    rw [List.flatMap_cons, List.countP_append, ha, ih, List.length_cons, Nat.add_comm]

theorem countP_lands_le (tries : List Attempt) :
    (tries.flatMap (Attempt.exchanges owner c)).countP lands ≤ tries.countP Attempt.settles := by
  induction tries with
  | nil => exact Nat.le_refl 0
  | cons a tries ih =>
    have ha : (a.exchanges owner c).countP lands ≤ [a].countP Attempt.settles := by
      cases a with
      | written copy => exact Nat.le_refl 1
      | _ => exact Nat.zero_le _
    rw [List.flatMap_cons, List.countP_append, ← List.singleton_append, List.countP_append]
    exact Nat.add_le_add ha ih

/-- An attempt that has settled the matter is the only one. -/
theorem Complete.exists_init (h : Complete n tries) {a : Attempt} (ha : a ∈ tries)
    (hsettles : a.settles = true) :
    ∃ init, tries = init ++ [a] ∧ ∀ b ∈ init, b.settles = false := by
  have hinit := List.dropLast_concat_getLast (List.ne_nil_of_mem ha)
  refine ⟨tries.dropLast, ?_, h.goesOn⟩
  rw [← hinit, List.mem_append, List.mem_singleton] at ha
  rcases ha with hmem | hlast
  · exact absurd ((h.goesOn a hmem).symm.trans hsettles) (by decide)
  · rw [hlast, hinit]

theorem Complete.countP_settles_le (h : Complete n tries) :
    tries.countP Attempt.settles ≤ 1 := by
  by_cases hall : ∀ a ∈ tries, a.settles = false
  · rw [List.countP_eq_zero.2 fun a ha => by simp [hall a ha]]
    exact Nat.zero_le 1
  · obtain ⟨a, ha, hsettles⟩ := by simpa using hall
    obtain ⟨init, rfl, hinit⟩ := h.exists_init ha hsettles
    rw [List.countP_append, List.countP_eq_zero.2 fun b hb => by simp [hinit b hb], Nat.zero_add]
    exact List.countP_le_length

theorem Complete.find?_settles (h : Complete n tries) {a : Attempt} (ha : a ∈ tries)
    (hsettles : a.settles = true) : tries.find? Attempt.settles = some a := by
  obtain ⟨init, rfl, hinit⟩ := h.exists_init ha hsettles
  have hnone : init.find? Attempt.settles = none :=
    List.find?_eq_none.2 fun b hb => by simp [hinit b hb]
  rw [List.find?_append, hnone, Option.none_or, List.find?_cons_of_pos hsettles]

/-- If no attempt has settled the matter, they are used up, and the last write that failed is made
known. -/
theorem Complete.news_of_goesOn (h : Complete n tries) (hall : ∀ a ∈ tries, a.settles = false)
    (event : Event) : tries.length = n ∧ news event none tries =
      (lastRefusal tries).map fun last => (last.1, failureEvent last.2) := by
  constructor
  · rcases h.stops with hlength | ⟨a, ha, hsettles⟩
    · exact hlength
    · have hmem : a ∈ tries := List.mem_of_getLast? ha
      exact absurd ((hall a hmem).symm.trans hsettles) (by decide)
  · have hnone : tries.find? Attempt.settles = none :=
      List.find?_eq_none.2 fun a ha => by simp [hall a ha]
    rw [news, hnone, Option.or_none]

end Record

/-- Whatever its calls are answered, a recording looks at the clock, makes its attempts, at most as
many as the settings say and at least one, and then makes something known at most once: if the
status was written, the event of the outcome; if all attempts are used up and a write has failed,
a warning with the last write that failed; and nothing otherwise, in particular if the resource was
found to be gone. It fetches the resource once in every attempt, and the status is written at most
once. What it writes says of the job what the outcome and the clock have told. -/
theorem record_proceeds (settings : ManagerSettings) (job : Job) (outcome : Except Fault String)
    (answers : Nat → (c : DeskCall) → c.Reply) :
    ∃ (now : Instant) (state : JobState) (event : Event) (c : Condition)
      (tries : List Record.Attempt) (told : Option (Resource × Event)),
      Record.Tells job.name outcome state event ∧
      c = ⟨job.name, job.id, job.schedule, job.desiredSize, job.runOnce, state, now.textAt 0,
        event.message⟩ ∧
      (record settings job outcome).exchanges answers =
        ⟨.manager .clock, now⟩ :: tries.flatMap (Record.Attempt.exchanges job.owner c) ++
          told.toList.map Record.publishing ∧
      Record.Complete (max 1 settings.statusPatchRetries) tries ∧
      (∀ copy, .written copy ∈ tries → told = some (copy, event)) ∧
      ((∀ a ∈ tries, a.settles = false) → tries.length = max 1 settings.statusPatchRetries ∧
        told = (Record.lastRefusal tries).map fun last => (last.1,
          ⟨.warning, "Failed", "Failed to update cronhpa status: " ++ last.2.message⟩)) ∧
      (∀ a ∈ tries, a.settles = true → (∀ copy, a ≠ .written copy) → told = none) ∧
      ((record settings job outcome).exchanges answers).countP Record.isFetch = tries.length ∧
      ((record settings job outcome).exchanges answers).countP Record.lands ≤ 1 := by
  obtain ⟨tries, hcomplete, hexchanges⟩ := Record.exists_attempts job.owner
    (Record.conditionOf job outcome (answers 0 (.manager .clock))) (fun i => answers (i + 1))
    (Record.eventOf job outcome) (max 1 settings.statusPatchRetries) none
  have hall : (record settings job outcome).exchanges answers =
      ⟨.manager .clock, answers 0 (.manager .clock)⟩ :: _ := congrArg (List.cons _) hexchanges
  generalize htold : Record.news (Record.eventOf job outcome) none tries = told at hall
  have hcount : ∀ test : Exchange Desk → Bool, (∀ now, test ⟨.manager .clock, now⟩ = false) →
      (∀ n, test (Record.publishing n) = false) →
      ((record settings job outcome).exchanges answers).countP test =
        (tries.flatMap (Record.Attempt.exchanges job.owner (Record.conditionOf job outcome
          (answers 0 (.manager .clock))))).countP test := by
    intro test hclock hpublish
    have htells : (told.toList.map Record.publishing).countP test = 0 := by
      refine List.countP_eq_zero.2 fun e he => ?_
      obtain ⟨n, -, rfl⟩ := List.mem_map.1 he
      simp [hpublish]
    rw [hall, List.countP_cons_of_neg (by simp [hclock]), List.countP_append, htells, Nat.add_zero]
  refine ⟨_, _, _, _, tries, told, Record.tells_eventOf job outcome, rfl, hall, hcomplete,
    fun copy hcopy => ?_, fun hnone => ?_, fun a ha hsettles hgone => ?_, ?_, ?_⟩
  · rw [← htold, Record.news, hcomplete.find?_settles hcopy rfl]
  · rw [← htold]
    exact hcomplete.news_of_goesOn hnone _
  · rw [← htold, Record.news, hcomplete.find?_settles ha hsettles]
    cases a with
    | written copy => exact absurd rfl (hgone copy)
    | _ => rfl
  · rw [hcount Record.isFetch (fun _ => rfl) fun _ => rfl, Record.countP_isFetch]
  · rw [hcount Record.lands (fun _ => rfl) fun _ => rfl]
    exact Nat.le_trans (Record.countP_lands_le tries) hcomplete.countP_settles_le

end CronScale
