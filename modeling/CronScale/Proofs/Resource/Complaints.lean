import CronScale.Proofs.Outcomes
import CronScale.Resource.Validation
import CronScale.Scaling.Job
import Mathlib.Data.List.Nodup
/-!
# Complaints and jobs that cannot be built

What a resource asks for is looked at twice: as a whole, for complaints, and again when one of its
jobs is built. A job is built without regard to the other jobs, to its name and to the excluded
days; apart from these, the two should take offence at the same things. They do, in both directions
(`complaints_eq_nil_iff_builds`), with one exception. An API version has to have two parts. A
complaint is made only if one of them is empty, while no job is built if one of them holds nothing
but blanks. So there are specifications that nobody complains about and none of whose jobs can be
built (`blankGroup_not_complained_about`).
-/

namespace CronScale

open CronScale.Text

theorem blank_empty : blank "" = true := rfl

namespace Schedule

theorem parses_iff {expr : String} : parses expr = true ↔ ∃ s, parse expr = .ok s := by
  unfold parses
  cases parse expr with
  | error e => simp [Except.isOk, Except.toBool]
  | ok s => simp [Except.isOk, Except.toBool]

end Schedule

/-! ### The target -/

namespace TargetSpec

/-- Whether an API version has two parts, neither of them empty, but one of them of blanks only. -/
def HasBlankPart (t : TargetSpec) : Prop :=
  ∃ group version, cutString '/' t.apiVersion = some (group, version) ∧ group ≠ "" ∧
    version ≠ "" ∧ (blank group = true ∨ blank version = true)

variable {t : TargetSpec}

theorem complaint?_eq_none_iff : t.complaint? = none ↔
    blank t.kind = false ∧ blank t.name = false ∧ hasGroupAndVersion t.apiVersion = true := by
  unfold complaint?
  cases blank t.kind <;> cases blank t.name <;> cases hasGroupAndVersion t.apiVersion <;> simp

theorem HasBlankPart.hasGroupAndVersion (h : t.HasBlankPart) :
    hasGroupAndVersion t.apiVersion = true := by
  obtain ⟨group, version, hcut, hgroup, hversion, -⟩ := h
  simp [CronScale.hasGroupAndVersion, hcut, hgroup, hversion]

/-- What is asked of the two parts of an API version when a job is built. -/
theorem parts_iff :
    blank (TargetRef.splitApiVersion t.apiVersion).1 = false ∧
        blank (TargetRef.splitApiVersion t.apiVersion).2 = false ↔
      CronScale.hasGroupAndVersion t.apiVersion = true ∧ ¬ t.HasBlankPart := by
  unfold TargetRef.splitApiVersion CronScale.hasGroupAndVersion HasBlankPart
  cases cutString '/' t.apiVersion with
  | none => simp [blank_empty]
  | some parts =>
    obtain ⟨group, version⟩ := parts
    have hempty : ∀ s : String, blank s = false → s ≠ "" := by
      rintro _ hs rfl
      exact absurd (hs.symm.trans blank_empty) (by decide)
    simp only [Option.getD_some, Option.some.injEq, Prod.mk.injEq, Bool.and_eq_true, bne_iff_ne]
    constructor
    · intro hparts
      refine ⟨⟨hempty _ hparts.1, hempty _ hparts.2⟩, ?_⟩
      rintro ⟨_, _, ⟨rfl, rfl⟩, -, -, hblank | hblank⟩
      · exact absurd (hparts.1.symm.trans hblank) (by decide)
      · exact absurd (hparts.2.symm.trans hblank) (by decide)
    · intro hparts
      constructor
      · rw [Bool.eq_false_iff]
        intro hblank
        exact hparts.2 ⟨group, version, ⟨rfl, rfl⟩, hparts.1.1, hparts.1.2, .inl hblank⟩
      · rw [Bool.eq_false_iff]
        intro hblank
        exact hparts.2 ⟨group, version, ⟨rfl, rfl⟩, hparts.1.1, hparts.1.2, .inr hblank⟩

end TargetSpec

theorem TargetRef.isComplete_iff {t : TargetRef} : t.isComplete = true ↔
    blank t.name = false ∧ blank t.ns = false ∧ blank t.kind = false ∧ blank t.group = false ∧
      blank t.version = false := by
  simp only [isComplete, Bool.not_eq_true', Bool.or_eq_false_iff, and_assoc]

variable {r : Resource}

/-- The target that is looked at when a job is built. -/
theorem Job.targetOf_eq (r : Resource) : Job.targetOf r =
    let t := TargetRef.ofApiVersion r.spec.target.name r.key.ns r.spec.target.kind
      r.spec.target.apiVersion
    if t.isComplete then .ok t
    else .error (.incompleteReference r.spec.target.name r.key.ns r.spec.target.kind
      r.spec.target.apiVersion) :=
  rfl

theorem Job.exists_targetOf_iff : (∃ target, Job.targetOf r = .ok target) ↔
    blank r.key.ns = false ∧ r.spec.target.complaint? = none ∧ ¬ r.spec.target.HasBlankPart := by
  have hcomplete : (∃ target, Job.targetOf r = .ok target) ↔
      (TargetRef.ofApiVersion r.spec.target.name r.key.ns r.spec.target.kind
        r.spec.target.apiVersion).isComplete = true := by
    rw [Job.targetOf_eq]
    simp only
    split
    next h => simp [h]
    next h => simp [h]
  rw [hcomplete, TargetRef.isComplete_iff, TargetSpec.complaint?_eq_none_iff]
  simp only [TargetRef.ofApiVersion, TargetSpec.parts_iff]
  constructor
  · intro h
    obtain ⟨hname, hns, hkind, hparts, hblank⟩ := h
    exact ⟨hns, ⟨hkind, hname, hparts⟩, hblank⟩
  · intro h
    obtain ⟨hns, ⟨hkind, hname, hparts⟩, hblank⟩ := h
    exact ⟨hname, hns, hkind, hparts, hblank⟩

/-! ### The jobs -/

theorem Job.exists_build_iff {j : JobSpec} {id : String} : (∃ job, Job.build r j id = .ok job) ↔
    (∃ target, Job.targetOf r = .ok target) ∧ Schedule.parses j.schedule = true ∧
      0 ≤ j.targetSize := by
  rw [Schedule.parses_iff]
  unfold Job.build
  cases Job.targetOf r with
  | error e => simp
  | ok target =>
    cases Schedule.parse j.schedule with
    | error e => simp
    | ok s =>
      by_cases hsize : j.targetSize < 0
      · simp [hsize]
      · simp [hsize, Int.not_lt.1 hsize]

theorem JobSpec.complaint?_eq_none_iff {j : JobSpec} {seen : List String} :
    j.complaint? seen = none ↔ blank j.name = false ∧ j.name ∉ seen ∧ 0 ≤ j.targetSize ∧
      Schedule.parses j.schedule = true := by
  rw [Schedule.parses_iff]
  unfold JobSpec.complaint?
  split
  next hblank => simp [hblank]
  next hname =>
    split
    next hseen => simp [List.contains_iff_mem.1 hseen]
    next hnew =>
      rw [List.contains_iff_mem] at hnew
      rw [Bool.not_eq_true] at hname
      split
      next hsize => simp [Int.not_le.2 hsize]
      next hsize =>
        cases Schedule.parse j.schedule with
        | error e => simp
        | ok s => simp [hname, hnew, Int.not_lt.1 hsize]

/-- The induction is on the jobs still to be looked at; the names of the others are taken. -/
theorem jobsComplaint?_eq_none_iff {js : List JobSpec} {seen : List String} :
    jobsComplaint? seen js = none ↔
      (∀ j ∈ js, blank j.name = false ∧ 0 ≤ j.targetSize ∧ Schedule.parses j.schedule = true) ∧
        (js.map JobSpec.name).Nodup ∧ ∀ j ∈ js, j.name ∉ seen := by
  induction js generalizing seen with
  | nil => simp [jobsComplaint?]
  | cons j js ih =>
    have hstep : jobsComplaint? seen (j :: js) = none ↔
        j.complaint? seen = none ∧ jobsComplaint? (j.name :: seen) js = none := by
      rw [jobsComplaint?]
      cases j.complaint? seen <;> simp
    rw [hstep, ih, JobSpec.complaint?_eq_none_iff]
    have hnames : (∀ j' ∈ js, j'.name ∉ j.name :: seen) ↔
        j.name ∉ js.map JobSpec.name ∧ ∀ j' ∈ js, j'.name ∉ seen := by
      simp only [List.mem_cons, not_or, List.mem_map, not_exists, not_and]
      exact forall₂_and
    rw [hnames, List.forall_mem_cons, List.forall_mem_cons, List.map_cons, List.nodup_cons]
    constructor
    · intro h
      obtain ⟨⟨hname, hnew, hsize, hparses⟩, hall, hnodup, hhere, hseen⟩ := h
      exact ⟨⟨⟨hname, hsize, hparses⟩, hall⟩, ⟨hhere, hnodup⟩, hnew, hseen⟩
    · intro h
      obtain ⟨⟨⟨hname, hsize, hparses⟩, hall⟩, ⟨hhere, hnodup⟩, hnew, hseen⟩ := h
      exact ⟨⟨hname, hnew, hsize, hparses⟩, hall, hnodup, hhere, hseen⟩

theorem exclusionsComplaint_eq_none_iff {exprs : List String} :
    exprs.findSome? exclusionComplaint? = none ↔ ∀ e ∈ exprs, Schedule.parses e = true := by
  rw [List.findSome?_eq_none_iff]
  refine forall_congr' fun e => imp_congr_right fun _ => ?_
  rw [Schedule.parses_iff, exclusionComplaint?]
  cases Schedule.parse e <;> simp

/-! ### The specification as a whole -/

theorem Spec.complaints_eq_nil_iff {s : Spec} : s.complaints = [] ↔
    s.target.complaint? = none ∧ jobsComplaint? [] s.jobs = none ∧
      ∀ e ∈ s.excludeDates, Schedule.parses e = true := by
  simp only [Spec.complaints, List.append_eq_nil_iff, Option.toList_eq_nil_iff,
    exclusionsComplaint_eq_none_iff, and_assoc]

/-- In a namespace that is not blank, a specification with jobs gives no reason for complaint, and
no part of its API version is of blanks only, exactly if every one of its jobs can be built, their
names are distinct and not blank, and every excluded day can be read. If a part of the API version
is of blanks only, nobody complains about the API version, and no job can be built at all. -/
theorem complaints_eq_nil_iff_builds (hns : blank r.key.ns = false) (hjobs : r.spec.jobs ≠ []) :
    (r.spec.complaints = [] ∧ ¬ r.spec.target.HasBlankPart ↔
      (∀ j ∈ r.spec.jobs, ∀ id, ∃ job, Job.build r j id = .ok job) ∧
      (∀ j ∈ r.spec.jobs, blank j.name = false) ∧ (r.spec.jobs.map JobSpec.name).Nodup ∧
      ∀ e ∈ r.spec.excludeDates, Schedule.parses e = true) ∧
    (r.spec.target.HasBlankPart →
      (∀ version, r.spec.target.complaint? ≠ some (.badApiVersion version)) ∧
      ∀ j id, ∃ e, Job.build r j id = .error e) := by
  rw [Spec.complaints_eq_nil_iff, jobsComplaint?_eq_none_iff]
  simp only [Job.exists_build_iff, Job.exists_targetOf_iff, hns, true_and, List.not_mem_nil,
    not_false_eq_true, implies_true, and_true]
  constructor
  · constructor
    · intro h
      obtain ⟨⟨htarget, ⟨hbuild, hnodup⟩, hdates⟩, hparts⟩ := h
      refine ⟨fun j hj _ => ⟨⟨htarget, hparts⟩, (hbuild j hj).2.2, (hbuild j hj).2.1⟩, ?_, hnodup,
        hdates⟩
      exact fun j hj => (hbuild j hj).1
    · intro h
      obtain ⟨hbuild, hnames, hnodup, hdates⟩ := h
      -- The target is looked at whenever a job is built, and there is one.
      obtain ⟨j, hj⟩ := List.exists_mem_of_ne_nil _ hjobs
      obtain ⟨htarget, hparts⟩ := (hbuild j hj "").1
      refine ⟨⟨htarget, ⟨fun j hj => ?_, hnodup⟩, hdates⟩, hparts⟩
      exact ⟨hnames j hj, (hbuild j hj "").2.2, (hbuild j hj "").2.1⟩
  · intro hparts
    constructor
    · intro version
      unfold TargetSpec.complaint?
      rw [if_pos hparts.hasGroupAndVersion]
      cases blank r.spec.target.kind <;> cases blank r.spec.target.name <;> simp
    · intro j id
      cases hbuild : Job.build r j id with
      | error e => exact ⟨e, rfl⟩
      | ok job =>
        have htarget := (Job.exists_build_iff.1 ⟨job, hbuild⟩).1
        exact absurd hparts (Job.exists_targetOf_iff.1 htarget).2.2

/-- A resource that asks for two sizes a day except at Christmas, of a target with an API
version. -/
def dayAndNight (apiVersion : String) : Resource where
  metadata := { name := some "web", ns := some "default" }
  spec :=
    { excludeDates := ["* * * 25 12 *"]
      target := ⟨apiVersion, "Deployment", "web"⟩
      jobs := [⟨"up", "0 0 8 * * *", false, 5⟩, ⟨"down", "0 0 20 * * *", false, 1⟩] }
  status := none

theorem dayAndNight_complete : (dayAndNight "apps/v1").spec.complaints = [] ∧
    ∀ j ∈ (dayAndNight "apps/v1").spec.jobs, ∀ id,
      ∃ job, Job.build (dayAndNight "apps/v1") j id = .ok job := by
  have hnone : (dayAndNight "apps/v1").spec.complaints = [] := by decide +kernel
  have hparts : ¬ (dayAndNight "apps/v1").spec.target.HasBlankPart := by
    rintro ⟨group, version, hcut, -, -, hblank⟩
    have hcut' : cutString '/' (dayAndNight "apps/v1").spec.target.apiVersion =
        some ("apps", "v1") := by decide +kernel
    obtain ⟨rfl, rfl⟩ := Prod.mk.inj (Option.some.inj (hcut'.symm.trans hcut))
    revert hblank
    decide +kernel
  have hbuilds := (complaints_eq_nil_iff_builds (r := dayAndNight "apps/v1") (by decide +kernel)
    (by decide)).1.1 ⟨hnone, hparts⟩
  exact ⟨hnone, hbuilds.1⟩

/-- A blank is a group for the complaints, and none for the jobs. -/
theorem blankGroup_not_complained_about :
    blank (dayAndNight " /v1").key.ns = false ∧ (dayAndNight " /v1").spec.jobs ≠ [] ∧
      (dayAndNight " /v1").spec.complaints = [] ∧
      ∀ j ∈ (dayAndNight " /v1").spec.jobs, ∀ id,
        Job.build (dayAndNight " /v1") j id =
          .error (.incompleteReference "web" "default" "Deployment" " /v1") := by
  refine ⟨by decide +kernel, by decide, by decide +kernel, ?_⟩
  intro j _ id
  have htarget : Job.targetOf (dayAndNight " /v1") =
      .error (.incompleteReference "web" "default" "Deployment" " /v1") := by
    have hincomplete : ¬ (TargetRef.ofApiVersion "web" "default" "Deployment" " /v1").isComplete =
        true := by decide +kernel
    rw [Job.targetOf_eq]
    exact if_neg hincomplete
  unfold Job.build
  rw [htarget]

end CronScale
