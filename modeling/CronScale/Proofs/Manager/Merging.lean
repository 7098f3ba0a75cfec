import CronScale.Proofs.Manager.Identities
/-!
# Merging conditions

The outcome of a run is merged into a status by the id and by the name of its job, what a reconcile
has to say by the name alone. Both merges put a condition in the place of old ones, and the first
may find several, some by the id and some by the name, on either side of conditions that are about
other jobs.

`Condition.Supplants` says what comes of the first merge without saying how it is computed, and
`Condition.mergeByJob_laws` that nothing else can come of it. The place is sought among the old
conditions and used among those that are left (`mergeByJob_of_first`); it is the right one there
too, because nothing before it is taken out. Where names are distinct and the id keeps to its name,
the two merges come to the same. This is so for the outcome of every job that is carried out and the
status that is stored by then (`World.outcomes_merged_by_name`).
-/

namespace CronScale

open CronScale.Calendar
open scoped List

namespace Condition

/-- The conditions that are not about the job of a new one, in their order. -/
def others (c : Condition) (ds : List Condition) : List Condition :=
  ds.filter fun d => !c.matchesJob d

/-- Whether a list comes of another one by putting a condition in the place of all that are about
its job, by their ids or by their names. -/
structure Supplants (c : Condition) (ds es : List Condition) : Prop where
  /-- It is there once, and nothing else is about its job. -/
  alone : es.filter c.matchesJob = [c]
  /-- All others are there as they were, in their order. -/
  spared : c.others es = c.others ds
  /-- If some were about its job, then its position is that of the first of them, where those that
  are left are counted. -/
  first : ∀ i, ds.findIdx? c.matchesJob = some i → es[(c.others (ds.take i)).length]? = some c
  /-- If none was, it is added at the end. -/
  last : (∀ d ∈ ds, c.matchesJob d = false) → es = ds ++ [c]

/-- Whether two lists hold the same conditions, and in the same order but for those about two
jobs. -/
structure SameBut (c c' : Condition) (es es' : List Condition) : Prop where
  perm : es.Perm es'
  spared : c'.others (c.others es) = c'.others (c.others es')

variable {c c' d x : Condition} {ds es : List Condition} {i : Nat}

theorem matchesJob_comm (c d : Condition) : c.matchesJob d = d.matchesJob c := by
  rw [matchesJob, matchesJob, BEq.comm, BEq.comm (a := d.name)]

theorem others_cons_of_matches (h : c.matchesJob x = true) :
    c.others (x :: ds) = c.others ds :=
  List.filter_cons_of_neg (by simp [h])

theorem others_cons_of_not (h : c.matchesJob x = false) :
    c.others (x :: ds) = x :: c.others ds :=
  List.filter_cons_of_pos (by simp [h])

theorem others_eq_self (h : ∀ d ∈ ds, c.matchesJob d = false) : c.others ds = ds :=
  List.filter_eq_self.2 fun d hd => by simp [h d hd]

theorem others_comm (c c' : Condition) (ds : List Condition) :
    c'.others (c.others ds) = c.others (c'.others ds) :=
  List.filter_comm _ _ ds

theorem mergeByJob_cons_of_matches (h : c.matchesJob x = true) :
    c.mergeByJob (x :: ds) = c :: c.others ds := by
  rw [mergeByJob_cons, if_pos h]
  rfl

theorem mergeByJob_cons_of_not (h : c.matchesJob x = false) :
    c.mergeByJob (x :: ds) = x :: c.mergeByJob ds := by
  rw [mergeByJob_cons, if_neg (by simp [h])]

/-! ### The place of a condition -/

theorem mergeByJob_of_none (h : ∀ d ∈ ds, c.matchesJob d = false) :
    c.mergeByJob ds = ds ++ [c] := by
  induction ds with
  | nil => rfl
  | cons x ds ih =>
    obtain ⟨hx, hds⟩ := List.forall_mem_cons.1 h
    rw [mergeByJob_cons_of_not hx, ih hds, List.cons_append]

/-- The place can be sought first: all that stands before it is kept, so that it is there still when
everything about the job has been taken out. -/
theorem mergeByJob_of_first (h : ds.findIdx? c.matchesJob = some i) :
    c.others (ds.take i) = ds.take i ∧ i ≤ (c.others ds).length ∧
      c.mergeByJob ds = (c.others ds).insertIdx i c := by
  induction ds generalizing i with
  | nil => exact absurd h (by simp)
  | cons x ds ih =>
    cases hx : c.matchesJob x with
    | true =>
      obtain rfl : 0 = i := by simpa [List.findIdx?_cons, hx] using h
      rw [mergeByJob_cons_of_matches hx, others_cons_of_matches hx]
      exact ⟨rfl, Nat.zero_le _, List.insertIdx_zero.symm⟩
    | false =>
      obtain ⟨j, hj, rfl⟩ : ∃ j, ds.findIdx? c.matchesJob = some j ∧ j + 1 = i := by
        simpa [List.findIdx?_cons, hx] using h
      obtain ⟨hkept, hle, hmerge⟩ := ih hj
      rw [mergeByJob_cons_of_not hx, others_cons_of_not hx, List.take_succ_cons,
        others_cons_of_not hx, hkept, hmerge, List.insertIdx_succ_cons]
      exact ⟨rfl, Nat.succ_le_succ hle, rfl⟩

theorem length_others_take (h : ds.findIdx? c.matchesJob = some i) :
    (c.others (ds.take i)).length = i := by
  obtain ⟨hlt, -⟩ := List.findIdx?_eq_some_iff_getElem.1 h
  rw [(mergeByJob_of_first h).1, List.length_take, Nat.min_eq_left (Nat.le_of_lt hlt)]

/-- A list in which nothing but the condition itself is about its job stays as it is. -/
theorem mergeByJob_eq_self (h : ds.filter c.matchesJob = [c]) : c.mergeByJob ds = ds := by
  induction ds with
  | nil => exact absurd h (by simp)
  | cons x ds ih =>
    cases hx : c.matchesJob x with
    | true =>
      rw [List.filter_cons_of_pos hx] at h
      obtain ⟨rfl, hnone⟩ := List.cons.inj h
      rw [mergeByJob_cons_of_matches hx, others_eq_self]
      exact fun d hd => Bool.eq_false_iff.2 (List.filter_eq_nil_iff.1 hnone d hd)
    | false =>
      rw [List.filter_cons_of_neg (by simp [hx])] at h
      rw [mergeByJob_cons_of_not hx, ih h]

/-- The only condition about its job is found where it stands. -/
theorem findIdx?_of_alone (h : es.filter c.matchesJob = [c]) (hi : es[i]? = some c) :
    es.findIdx? c.matchesJob = some i := by
  induction es generalizing i with
  | nil => exact absurd hi (by simp)
  | cons x es ih =>
    rw [List.findIdx?_cons]
    cases hx : c.matchesJob x with
    | true =>
      rw [List.filter_cons_of_pos hx] at h
      have hnone := List.filter_eq_nil_iff.1 (List.cons.inj h).2
      cases i with
      | zero => rfl
      | succ j =>
        rw [List.getElem?_cons_succ] at hi
        exact absurd (matchesJob_self c) (hnone c (List.mem_of_getElem? hi))
    | false =>
      rw [List.filter_cons_of_neg (by simp [hx])] at h
      cases i with
      | zero =>
        obtain rfl : x = c := Option.some.inj hi
        exact absurd (hx.symm.trans (matchesJob_self x)) Bool.false_ne_true
      | succ j => rw [ih h hi]; rfl

theorem supplants_mergeByJob (c : Condition) (ds : List Condition) :
    c.Supplants ds (c.mergeByJob ds) where
  alone := filter_mergeByJob c ds
  spared := filter_not_mergeByJob c ds
  first := by
    intro i h
    obtain ⟨-, hle, hmerge⟩ := mergeByJob_of_first h
    rw [length_others_take h, hmerge, List.getElem?_insertIdx_self, if_pos hle]
  last := mergeByJob_of_none

/-- Nothing else can come of a merge. -/
theorem Supplants.eq_mergeByJob (h : c.Supplants ds es) : es = c.mergeByJob ds := by
  cases hplace : ds.findIdx? c.matchesJob with
  | none =>
    have hnone := List.findIdx?_eq_none_iff.1 hplace
    rw [mergeByJob_of_none hnone, h.last hnone]
  | some i =>
    -- To merge the condition into the result again changes nothing but shows how the result is made
    -- of its place and of the others, and these it has in common with the merge.
    have hthere := h.first i hplace
    rw [length_others_take hplace] at hthere
    obtain ⟨-, -, hmerge⟩ := mergeByJob_of_first hplace
    obtain ⟨-, -, hself⟩ := mergeByJob_of_first (findIdx?_of_alone h.alone hthere)
    rw [hmerge, ← h.spared, ← hself, mergeByJob_eq_self h.alone]

/-! ### Two conditions -/

theorem mergeByJob_perm (c : Condition) (ds : List Condition) :
    (c.mergeByJob ds).Perm (c :: c.others ds) := by
  induction ds with
  | nil => exact .refl _
  | cons x ds ih =>
    cases hx : c.matchesJob x with
    | true => rw [mergeByJob_cons_of_matches hx, others_cons_of_matches hx]
    | false =>
      rw [mergeByJob_cons_of_not hx, others_cons_of_not hx]
      exact (ih.cons x).trans (.swap c x _)

theorem mergeByJob_mergeByJob_perm (h : c'.matchesJob c = false) (ds : List Condition) :
    (c'.mergeByJob (c.mergeByJob ds)).Perm (c' :: c :: c'.others (c.others ds)) := by
  have hothers : (c'.others (c.mergeByJob ds)).Perm (c :: c'.others (c.others ds)) :=
    others_cons_of_not h ▸ (mergeByJob_perm c ds).filter _
  exact (mergeByJob_perm c' _).trans (hothers.cons c')

theorem others_mergeByJob_mergeByJob (c c' : Condition) (ds : List Condition) :
    c'.others (c.others (c'.mergeByJob (c.mergeByJob ds))) = c'.others (c.others ds) := by
  have hlast : c'.others (c'.mergeByJob (c.mergeByJob ds)) = c'.others (c.mergeByJob ds) :=
    filter_not_mergeByJob c' _
  have hfirst : c.others (c.mergeByJob ds) = c.others ds := filter_not_mergeByJob c ds
  rw [others_comm, hlast, ← others_comm, hfirst]

/-- The order in which two conditions are merged makes no difference but for their places. -/
theorem sameBut_mergeByJob (h : c.matchesJob c' = false) (ds : List Condition) :
    SameBut c c' (c'.mergeByJob (c.mergeByJob ds)) (c.mergeByJob (c'.mergeByJob ds)) where
  perm := by
    have h' : c'.matchesJob c = false := matchesJob_comm c c' ▸ h
    calc c'.mergeByJob (c.mergeByJob ds)
      _ ~ c' :: c :: c'.others (c.others ds) := mergeByJob_mergeByJob_perm h' ds
      _ ~ c :: c' :: c'.others (c.others ds) := .swap c c' _
      _ ~ c :: c' :: c.others (c'.others ds) := .of_eq (by rw [others_comm])
      _ ~ c.mergeByJob (c'.mergeByJob ds) := (mergeByJob_mergeByJob_perm h ds).symm
  spared := calc c'.others (c.others (c'.mergeByJob (c.mergeByJob ds)))
      _ = c'.others (c.others ds) := others_mergeByJob_mergeByJob c c' ds
      _ = c.others (c'.others ds) := others_comm c c' ds
      _ = c.others (c'.others (c.mergeByJob (c'.mergeByJob ds))) :=
        (others_mergeByJob_mergeByJob c' c ds).symm
      _ = c'.others (c.others (c.mergeByJob (c'.mergeByJob ds))) := (others_comm c c' _).symm

/-- Where no condition is about both jobs, what is about the one can be taken out before or after
the other is merged. -/
theorem others_mergeByJob (hc : c.matchesJob c' = false)
    (h : ∀ d ∈ ds, ¬(c.matchesJob d = true ∧ c'.matchesJob d = true)) :
    c.others (c'.mergeByJob ds) = c'.mergeByJob (c.others ds) := by
  induction ds with
  | nil => exact others_cons_of_not hc
  | cons x ds ih =>
    obtain ⟨hx, hds⟩ := List.forall_mem_cons.1 h
    cases hx' : c'.matchesJob x with
    | true =>
      have hcx : c.matchesJob x = false := Bool.eq_false_iff.2 fun heq => hx ⟨heq, hx'⟩
      rw [mergeByJob_cons_of_matches hx', others_cons_of_not hc, others_cons_of_not hcx,
        mergeByJob_cons_of_matches hx', others_comm]
    | false =>
      rw [mergeByJob_cons_of_not hx']
      cases hcx : c.matchesJob x with
      | true => rw [others_cons_of_matches hcx, others_cons_of_matches hcx, ih hds]
      | false =>
        rw [others_cons_of_not hcx, others_cons_of_not hcx, mergeByJob_cons_of_not hx', ih hds]

/-- If no condition is about both jobs but one is about either, the places are the same too: only
two conditions that are both added at the end stand in the order in which they came. -/
theorem mergeByJob_comm (hc : c.matchesJob c' = false)
    (h : ∀ d ∈ ds, ¬(c.matchesJob d = true ∧ c'.matchesJob d = true))
    (hsome : ∃ d ∈ ds, c.matchesJob d = true ∨ c'.matchesJob d = true) :
    c'.mergeByJob (c.mergeByJob ds) = c.mergeByJob (c'.mergeByJob ds) := by
  have hc' : c'.matchesJob c = false := matchesJob_comm c c' ▸ hc
  induction ds with
  | nil => exact absurd hsome (by simp)
  | cons x ds ih =>
    obtain ⟨hx, hds⟩ := List.forall_mem_cons.1 h
    cases hcx : c.matchesJob x with
    | true =>
      have hx' : c'.matchesJob x = false := Bool.eq_false_iff.2 fun heq => hx ⟨hcx, heq⟩
      rw [mergeByJob_cons_of_matches hcx, mergeByJob_cons_of_not hc', mergeByJob_cons_of_not hx',
        mergeByJob_cons_of_matches hcx, others_mergeByJob hc hds]
    | false =>
      rw [mergeByJob_cons_of_not hcx]
      cases hx' : c'.matchesJob x with
      | true =>
        have hds' : ∀ d ∈ ds, ¬(c'.matchesJob d = true ∧ c.matchesJob d = true) :=
          fun d hd hboth => hds d hd hboth.symm
        rw [mergeByJob_cons_of_matches hx', mergeByJob_cons_of_matches hx',
          mergeByJob_cons_of_not hc, others_mergeByJob hc' hds']
      | false =>
        have hsome' : ∃ d ∈ ds, c.matchesJob d = true ∨ c'.matchesJob d = true := by
          simpa [hcx, hx'] using hsome
        rw [mergeByJob_cons_of_not hx', mergeByJob_cons_of_not hx', mergeByJob_cons_of_not hcx,
          ih hds hsome']

/-! ### Merging by the name alone -/

/-- Where names are distinct, merging by the name alone comes to the same exactly if the id is not
found under another name. -/
theorem mergeByJob_eq_mergeByName_iff (hnames : (ds.map name).Nodup) :
    c.mergeByJob ds = c.mergeByName ds ↔ ∀ d ∈ ds, d.jobId = c.jobId → d.name = c.name := by
  constructor
  · intro heq d hd hid
    by_contra hname
    have hfind : (c.mergeByName ds).find? (·.name == d.name) = some d := by
      rw [find?_mergeByName, if_neg (Ne.symm hname), find?_of_nodup hnames hd]
    have hmem := List.mem_of_find?_eq_some hfind
    rw [← heq] at hmem
    rcases mem_mergeByJob.1 hmem with rfl | ⟨-, hmatch⟩
    · exact hname rfl
    · exact (matchesJob_eq_false_iff.1 hmatch).1 hid
  · intro hids
    induction ds with
    | nil => rfl
    | cons x ds ih =>
      obtain ⟨hx, hds⟩ := List.forall_mem_cons.1 hids
      rw [List.map_cons, List.nodup_cons] at hnames
      by_cases hname : x.name = c.name
      · have hmatch : c.matchesJob x = true := by simp [matchesJob, hname]
        have hnone : ∀ d ∈ ds, c.matchesJob d = false := by
          intro d hd
          have hne : d.name ≠ c.name := fun heq =>
            hnames.1 (hname.trans heq.symm ▸ List.mem_map_of_mem hd)
          exact matchesJob_eq_false_iff.2 ⟨fun hid => hne (hds d hd hid), hne⟩
        rw [mergeByJob_cons_of_matches hmatch, others_eq_self hnone, mergeByName, if_pos hname]
      · have hmatch : c.matchesJob x = false :=
          matchesJob_eq_false_iff.2 ⟨fun hid => hname (hx hid), hname⟩
        rw [mergeByJob_cons_of_not hmatch, mergeByName, if_neg hname, ih hnames.2 hds]

/-- Whatever conditions there are, a merge by the id and the name of a job leaves the new condition
alone about its job, at the place of the first that was about it or at the end, and all others as
they were; that is all that can come of it, and the place may be sought before anything is taken
out. To merge a condition again changes nothing. Two conditions that share neither id nor name can
be merged in either order, but for their places, and for these as well if there was a condition
about one of their jobs and none about both. Where names are distinct, merging by the name alone
comes to the same exactly if the id is not found under another name. -/
theorem mergeByJob_laws (c : Condition) (ds : List Condition) :
    (∀ es, es = c.mergeByJob ds ↔ c.Supplants ds es) ∧
    (∀ i, ds.findIdx? c.matchesJob = some i →
      i ≤ (c.others ds).length ∧ c.mergeByJob ds = (c.others ds).insertIdx i c) ∧
    c.mergeByJob (c.mergeByJob ds) = c.mergeByJob ds ∧
    (∀ c' : Condition, c'.jobId ≠ c.jobId → c'.name ≠ c.name →
      SameBut c c' (c'.mergeByJob (c.mergeByJob ds)) (c.mergeByJob (c'.mergeByJob ds)) ∧
      ((∀ d ∈ ds, ¬(c.matchesJob d = true ∧ c'.matchesJob d = true)) →
        (∃ d ∈ ds, c.matchesJob d = true ∨ c'.matchesJob d = true) →
          c'.mergeByJob (c.mergeByJob ds) = c.mergeByJob (c'.mergeByJob ds))) ∧
    ((ds.map name).Nodup → (c.mergeByJob ds = c.mergeByName ds ↔
      ∀ d ∈ ds, d.jobId = c.jobId → d.name = c.name)) := by
  refine ⟨fun es => ⟨?_, Supplants.eq_mergeByJob⟩, fun i hplace => (mergeByJob_of_first hplace).2,
    mergeByJob_eq_self (filter_mergeByJob c ds), fun c' hid hname => ?_,
    mergeByJob_eq_mergeByName_iff⟩
  · intro h
    rw [h]
    exact supplants_mergeByJob c ds
  · have hapart : c.matchesJob c' = false := matchesJob_eq_false_iff.2 ⟨hid, hname⟩
    exact ⟨sameBut_mergeByJob hapart ds, mergeByJob_comm hapart⟩

/-- A condition about five replicas at eight in the morning. -/
def atEight (name jobId : String) (state : JobState) : Condition :=
  ⟨name, jobId, "0 0 8 * * *", 5, false, state, "", ""⟩

def upDone : Condition := atEight "up" "1" .succeed

def noonFailed : Condition := atEight "noon" "9" .failed

/-- Conditions of which two are about the job `up`: one by its name and its id, the other by the id
alone. -/
def renamed : List Condition :=
  [atEight "down" "2" .submitted, atEight "up" "1" .submitted, atEight "up-renamed" "1" .submitted]

/-- Both conditions about a job give way, though only one of them has its name. The outcome of
another job may be merged before or after. -/
theorem renamed_give_way :
    upDone.Supplants renamed [atEight "down" "2" .submitted, upDone] ∧
    renamed.findIdx? upDone.matchesJob = some 1 ∧
    upDone.mergeByJob renamed = (upDone.others renamed).insertIdx 1 upDone ∧
    noonFailed.mergeByJob (upDone.mergeByJob renamed) =
      upDone.mergeByJob (noonFailed.mergeByJob renamed) ∧
    (renamed.map name).Nodup ∧ upDone.mergeByJob renamed ≠ upDone.mergeByName renamed := by
  obtain ⟨hresult, hplace, -, hcomm, hnames⟩ := mergeByJob_laws upDone renamed
  have hfirst : renamed.findIdx? upDone.matchesJob = some 1 := by decide
  have hnodup : (renamed.map name).Nodup := by decide
  have hother := hcomm noonFailed (by decide) (by decide)
  refine ⟨(hresult _).1 (by decide), hfirst, (hplace 1 hfirst).2,
    hother.2 (by decide) (by decide), hnodup, ?_⟩
  intro heq
  exact absurd ((hnames hnodup).1 heq) (by decide)

end Condition

/-! ### Statuses that are stored -/

/-- In a sound status the id of a job is not found under another name. -/
theorem Record.merged_by_name {i : Issued} {s : Status} {job : Job} (hs : s.Sound i job.owner)
    (hjob : job.Sound i) (outcome : Except Fault String) (now : Instant) :
    (merged s (conditionOf job outcome now)).conditions =
      (conditionOf job outcome now).mergeByName s.conditions := by
  refine (Condition.mergeByJob_eq_mergeByName_iff hs.distinct).2 fun d hd hid => ?_
  by_contra hname
  have hmatch := World.not_matchesJob hjob (hs.conditions d hd) hname outcome now
  exact (Condition.matchesJob_eq_false_iff.1 hmatch).1 hid

/-- In every world that can come about, the outcome of a job is merged into the status that is
stored by then as a reconcile would put it there. -/
theorem World.outcomes_merged_by_name {w w' : World} (hw : Reachable w) {job : Job}
    (hjob : job ∈ w.executing) (hrun : Relation.ReflTransGen Step w w') {r : Resource}
    (hr : w'.resources job.owner = some r) {d : Draft}
    (hd : d.conditions = (r.status.getD .initial).conditions) (outcome : Except Fault String)
    (now : Instant) :
    (Record.merged (r.status.getD .initial) (Record.conditionOf job outcome now)).conditions =
      (d.put (Record.conditionOf job outcome now)).conditions := by
  have hgood := good_of_reachable hw
  obtain ⟨hgood', hle⟩ := hgood.run hrun
  have hstatus := (hgood'.resources job.owner r hr).status_getD
  rw [Record.merged_by_name hstatus ((hgood.executing job hjob).mono hle), Draft.put, hd]

end CronScale
