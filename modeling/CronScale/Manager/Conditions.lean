import CronScale.Resource.Basic
/-!
# Conditions of a status

A status has one condition for each job. A new condition takes the place of the one with its name,
or, when it comes from a run, of every one with its name or the id of its job; the place is that of
the first of these. `mergeByJob` leaves exactly one condition that matches, and every other one
where it was.
-/

namespace CronScale

namespace Condition

/-- Puts a condition in the place of the first one with its name, or at the end. -/
def mergeByName (c : Condition) : List Condition → List Condition
  | [] => [c]
  | d :: ds => if d.name = c.name then c :: ds else d :: mergeByName c ds

/-- Whether a condition is about the same job, going by the id or by the name. -/
def matchesJob (c d : Condition) : Bool := d.jobId == c.jobId || d.name == c.name

/-- Puts a condition in the place of all that are about the same job, or at the end. -/
def mergeByJob (c : Condition) (ds : List Condition) : List Condition :=
  let before := ds.takeWhile fun d => !c.matchesJob d
  let after := ds.dropWhile fun d => !c.matchesJob d
  before ++ c :: after.filter fun d => !c.matchesJob d

variable {c d : Condition} {ds : List Condition}

theorem mem_mergeByName (h : d ∈ c.mergeByName ds) : d = c ∨ d ∈ ds := by
  induction ds with
  | nil => exact .inl (List.mem_singleton.1 h)
  | cons x ds ih =>
    simp only [mergeByName] at h
    split at h
    · rcases List.mem_cons.1 h with rfl | h
      · exact .inl rfl
      · exact .inr (List.mem_cons_of_mem x h)
    · rcases List.mem_cons.1 h with rfl | h
      · exact .inr List.mem_cons_self
      · exact (ih h).imp_right (List.mem_cons_of_mem x)

/-- The new condition is there, and the others are where they were. -/
theorem find?_mergeByName (c : Condition) (ds : List Condition) (name : String) :
    (c.mergeByName ds).find? (·.name == name) =
      if c.name = name then some c else ds.find? (·.name == name) := by
  induction ds with
  | nil =>
    by_cases hname : c.name = name
    · simp [mergeByName, hname]
    · simp [mergeByName, hname]
  | cons x ds ih =>
    simp only [mergeByName]
    by_cases hx : x.name = c.name
    · by_cases hname : c.name = name
      · simp [hx, hname]
      · simp [hx, hname]
    · by_cases hname : x.name = name
      · have hne : c.name ≠ name := fun h => hx (hname.trans h.symm)
        have hne' : ¬ name = c.name := fun h => hne h.symm
        simp [hname, hne, hne']
      · simp [hx, hname, ih]

theorem names_mergeByName (c : Condition) (ds : List Condition) :
    (c.mergeByName ds).map name =
      if c.name ∈ ds.map name then ds.map name else ds.map name ++ [c.name] := by
  induction ds with
  | nil => rfl
  | cons x ds ih =>
    simp only [mergeByName]
    by_cases hx : x.name = c.name
    · simp [hx]
    · have hx' : c.name ≠ x.name := fun h => hx h.symm
      simp only [hx, if_false, List.map_cons, ih, List.mem_cons, hx', false_or]
      split <;> rfl

/-- After a merge the conditions have names of their own if they had before. -/
theorem nodup_mergeByName (c : Condition) (h : (ds.map name).Nodup) :
    ((c.mergeByName ds).map name).Nodup := by
  rw [names_mergeByName]
  split
  · exact h
  · rename_i hmem
    refine List.nodup_append.2 ⟨h, by simp, ?_⟩
    rintro a ha b hb rfl
    exact hmem (List.mem_singleton.1 hb ▸ ha)

theorem mergeByJob_cons (c x : Condition) (ds : List Condition) :
    c.mergeByJob (x :: ds) =
      if c.matchesJob x then c :: ds.filter fun d => !c.matchesJob d
      else x :: c.mergeByJob ds := by
  simp only [mergeByJob, List.takeWhile_cons, List.dropWhile_cons]
  by_cases hx : c.matchesJob x = true
  · simp [hx]
  · simp [hx]

theorem mem_mergeByJob : d ∈ c.mergeByJob ds ↔ d = c ∨ d ∈ ds ∧ c.matchesJob d = false := by
  induction ds with
  | nil => simp [mergeByJob]
  | cons x ds ih =>
    rw [mergeByJob_cons]
    by_cases hx : c.matchesJob x = true
    · simp only [hx, if_true, List.mem_cons, List.mem_filter, Bool.not_eq_true']
      constructor
      · rintro (rfl | ⟨hd, hmatch⟩)
        · exact .inl rfl
        · exact .inr ⟨.inr hd, hmatch⟩
      · rintro (rfl | ⟨rfl | hd, hmatch⟩)
        · exact .inl rfl
        · exact absurd (hx.symm.trans hmatch) (by decide)
        · exact .inr ⟨hd, hmatch⟩
    · rw [if_neg hx, List.mem_cons, List.mem_cons, ih]
      rw [Bool.not_eq_true] at hx
      constructor
      · rintro (rfl | rfl | ⟨hd, hmatch⟩)
        · exact .inr ⟨.inl rfl, hx⟩
        · exact .inl rfl
        · exact .inr ⟨.inr hd, hmatch⟩
      · rintro (rfl | ⟨rfl | hd, hmatch⟩)
        · exact .inr (.inl rfl)
        · exact .inl rfl
        · exact .inr (.inr ⟨hd, hmatch⟩)

theorem matchesJob_eq_false_iff :
    c.matchesJob d = false ↔ d.jobId ≠ c.jobId ∧ d.name ≠ c.name := by
  simp only [matchesJob, Bool.or_eq_false_iff, beq_eq_false_iff_ne]

theorem matchesJob_self (c : Condition) : c.matchesJob c = true := by
  simp only [matchesJob, beq_self_eq_true, Bool.or_self]

/-- After a merge only the new condition is about its job. -/
theorem filter_mergeByJob (c : Condition) (ds : List Condition) :
    (c.mergeByJob ds).filter c.matchesJob = [c] := by
  induction ds with
  | nil => simp [mergeByJob, matchesJob_self]
  | cons x ds ih =>
    rw [mergeByJob_cons]
    by_cases hx : c.matchesJob x = true
    · simp [hx, matchesJob_self]
    · simp [hx, ih]

/-- A merge leaves all conditions that are not about its job, in their order. -/
theorem filter_not_mergeByJob (c : Condition) (ds : List Condition) :
    ((c.mergeByJob ds).filter fun d => !c.matchesJob d) = ds.filter fun d => !c.matchesJob d := by
  induction ds with
  | nil => simp [mergeByJob, matchesJob_self]
  | cons x ds ih =>
    rw [mergeByJob_cons]
    by_cases hx : c.matchesJob x = true
    · simp [hx, matchesJob_self]
    · simp [hx, ih]

/-- After a merge the conditions have names of their own if they had before. -/
theorem nodup_mergeByJob (c : Condition) (h : (ds.map name).Nodup) :
    ((c.mergeByJob ds).map name).Nodup := by
  induction ds with
  | nil => simp [mergeByJob]
  | cons x ds ih =>
    rw [List.map_cons, List.nodup_cons] at h
    rw [mergeByJob_cons]
    by_cases hx : c.matchesJob x = true
    · rw [if_pos hx, List.map_cons, List.nodup_cons]
      refine ⟨fun hmem => ?_, h.2.sublist (List.filter_sublist.map _)⟩
      obtain ⟨d, hd, hname⟩ := List.mem_map.1 hmem
      have hmatch : c.matchesJob d = false := by simpa using (List.mem_filter.1 hd).2
      exact (matchesJob_eq_false_iff.1 hmatch).2 hname
    · rw [if_neg hx, List.map_cons, List.nodup_cons]
      refine ⟨fun hmem => ?_, ih h.2⟩
      obtain ⟨d, hd, hname⟩ := List.mem_map.1 hmem
      rcases mem_mergeByJob.1 hd with rfl | ⟨hd, _⟩
      · exact (matchesJob_eq_false_iff.1 (Bool.eq_false_iff.2 hx)).2 hname.symm
      · exact h.1 (List.mem_map.2 ⟨d, hd, hname⟩)

end Condition

/-- Whether two lists hold the same texts, in whatever order and number. -/
def sameTexts (as bs : List String) : Bool := as.all bs.contains && bs.all as.contains

/-- Whether the target or the excluded days were adopted otherwise than they are declared. -/
def Status.globalChange (s : Status) (spec : Spec) : Bool :=
  match s.target with
  | none => true
  | some t => t != spec.target || !sameTexts s.excludeDates spec.excludeDates

end CronScale
