import CronScale.Proofs.Schedule.Moments
/-!
# The search and the order of instants

The search for the next time of a recurrence goes through the readings of the wall clock in their
order, while what matters is the order of instants. Where clocks are put forward or back the two
differ. In a regular zone, whose clocks are changed by at most a day and at most once in two days,
they agree on the instants at which a reading is shown for the first time: such an instant comes
after another one exactly if it shows a later reading (`Zone.Regular.localAt_lt_of_first`). So the
search finds the first of all these instants at which the recurrence falls.

The search ends with the fifth year after the one from which it starts. Clocks that are put back
over the turn of a year take that end with them, and only then can a time that was found once be out
of reach for a later search (`Recurrence.nextAfter_again`).
-/

namespace CronScale.Calendar

/-- The instants at which a reading is shown, as a resolution names them. -/
def Resolution.times : Resolution → List Int
  | .skipped => []
  | .unique t => [t]
  | .repeated t t' => [t, t']

/-- The first one named is the least if the others come later. -/
theorem Resolution.earliest?_eq_some_iff {r : Resolution} (h : r.times.Pairwise (· < ·)) {t : Int} :
    r.earliest? = some t ↔ t ∈ r.times ∧ ∀ u < t, u ∉ r.times := by
  cases r with
  | skipped => simp [earliest?, times]
  | unique a =>
    simp only [earliest?, times, Option.some.injEq, List.mem_singleton]
    constructor
    · rintro rfl
      exact ⟨rfl, fun u hu => Int.ne_of_lt hu⟩
    · rintro ⟨rfl, _⟩
      rfl
  | repeated a b =>
    have hab : a < b := (List.pairwise_cons.1 h).1 b List.mem_cons_self
    simp only [earliest?, times, Option.some.injEq, List.mem_cons, List.not_mem_nil, or_false]
    constructor
    · rintro rfl
      exact ⟨.inl rfl, fun u hu => by omega⟩
    · rintro ⟨rfl | rfl, hleast⟩
      · rfl
      · exact absurd (.inl rfl) (hleast a hab)

namespace Zone

/-- What the clock shows at a second of universal time. -/
def localAt (z : Zone) (t : Int) : Int := t + z.offsetAt t

/-- Whether the clock is changed at a second. -/
def Changes (z : Zone) (t : Int) : Prop := z.offsetAt t ≠ z.offsetAt (t - 1)

/-- Whether the clock shows at a second what it has never shown before. -/
def First (z : Zone) (t : Int) : Prop := ∀ u < t, z.localAt u ≠ z.localAt t

/-- A zone whose clocks are changed by at most a day at once, with more than two days between two
changes, and whose resolutions name exactly the instants at which a reading is shown, the earliest
first. -/
structure Regular (z : Zone) : Prop where
  mem_times : ∀ w t, t ∈ (z.resolve w).times ↔ z.localAt t = w
  sorted : ∀ w, (z.resolve w).times.Pairwise (· < ·)
  small : ∀ t, z.offsetAt t - z.offsetAt (t - 1) ≤ 86400 ∧ z.offsetAt (t - 1) - z.offsetAt t ≤ 86400
  apart : ∀ s t, z.Changes s → z.Changes t → s < t → s + 2 * 86400 < t

variable {z : Zone}

/-- Between two changes the distance from universal time stays the same. -/
theorem offsetAt_eq_of_not_changes {s t : Int} (hst : s ≤ t)
    (h : ∀ c, s < c → c ≤ t → ¬ z.Changes c) : z.offsetAt t = z.offsetAt s := by
  obtain ⟨n, rfl⟩ : ∃ n : Nat, t = s + n := ⟨(t - s).toNat, by omega⟩
  clear hst
  induction n with
  | zero => rw [Int.natCast_zero, Int.add_zero]
  | succ n ih =>
    have hlast := h (s + (n + 1 : Nat)) (by omega) (by omega)
    simp only [Changes, Decidable.not_not] at hlast
    rw [hlast, ← ih fun c hc hc' => h c hc (by omega)]
    congr 1
    omega

namespace Regular

/-- Within two days the clock is changed at most once. -/
theorem exists_change (hz : z.Regular) {s t : Int} (hst : s ≤ t) (hspan : t ≤ s + 2 * 86400) :
    (∀ u, s ≤ u → u ≤ t → z.offsetAt u = z.offsetAt t) ∨
      ∃ c, s < c ∧ c ≤ t ∧ (∀ u, s ≤ u → u < c → z.offsetAt u = z.offsetAt s) ∧
        (∀ u, c ≤ u → u ≤ t → z.offsetAt u = z.offsetAt t) := by
  by_cases h : ∃ c, s < c ∧ c ≤ t ∧ z.Changes c
  · obtain ⟨c, hsc, hct, hc⟩ := h
    -- A second change in the same two days would be too close.
    have halone : ∀ c', s < c' → c' ≤ t → c' ≠ c → ¬ z.Changes c' := by
      intro c' hsc' hct' hne hc'
      rcases Int.lt_or_gt_of_ne hne with hlt | hlt
      · have := hz.apart c' c hc' hc hlt
        omega
      · have := hz.apart c c' hc hc' hlt
        omega
    refine .inr ⟨c, hsc, hct, fun u hu huc => ?_, fun u hcu hu => ?_⟩
    · exact offsetAt_eq_of_not_changes hu fun c' _ _ => halone c' (by omega) (by omega) (by omega)
    · exact (offsetAt_eq_of_not_changes hu fun c' _ _ =>
        halone c' (by omega) (by omega) (by omega)).symm
  · refine .inl fun u hsu hut => (offsetAt_eq_of_not_changes hut fun c hc hct hchange => ?_).symm
    exact h ⟨c, by omega, hct, hchange⟩

theorem offsetAt_le_of_span (hz : z.Regular) {s t : Int} (hst : s ≤ t)
    (hspan : t ≤ s + 2 * 86400) : z.offsetAt s ≤ z.offsetAt t + 86400 := by
  rcases hz.exists_change hst hspan with heq | ⟨c, hsc, hct, hbefore, hafter⟩
  · have := heq s (Int.le_refl s) hst
    omega
  · have hsmall := hz.small c
    have hb := hbefore (c - 1) (by omega) (by omega)
    have ha := hafter c (Int.le_refl c) hct
    omega

/-- After a day the clock shows a reading that is not earlier. -/
theorem localAt_le_of_day (hz : z.Regular) {s t : Int} (h : s + 86400 ≤ t) :
    z.localAt s ≤ z.localAt t := by
  obtain ⟨n, hn⟩ : ∃ n : Nat, t < s + 86400 * (n + 2) := ⟨(t - s).toNat, by omega⟩
  induction n generalizing t with
  | zero =>
    have := hz.offsetAt_le_of_span (s := s) (t := t) (by omega) (by omega)
    simp only [localAt]
    omega
  | succ n ih =>
    by_cases hnear : t ≤ s + 2 * 86400
    · have := hz.offsetAt_le_of_span (s := s) (t := t) (by omega) hnear
      simp only [localAt]
      omega
    · have hday := hz.offsetAt_le_of_span (s := t - 86400) (t := t) (by omega) (by omega)
      have hrest := ih (t := t - 86400) (by omega) (by omega)
      simp only [localAt] at hrest ⊢
      omega

/-- What the clock shows for the first time is later than anything it has shown before. -/
theorem localAt_lt_of_first (hz : z.Regular) {s t : Int} (hfirst : z.First t) (hst : s < t) :
    z.localAt s < z.localAt t := by
  refine Int.lt_of_not_ge fun hge => ?_
  have hne := hfirst s hst
  have hnear : t < s + 86400 := by
    refine Int.lt_of_not_ge fun hfar => ?_
    have := hz.localAt_le_of_day hfar
    omega
  rcases hz.exists_change (s := t - 2 * 86400) (t := t) (by omega) (by omega) with
    heq | ⟨c, hc, hct, hbefore, hafter⟩
  · have := heq s (by omega) (by omega)
    simp only [localAt] at hge hne
    omega
  · rcases Int.lt_or_le s c with hsc | hcs
    · -- The clock was put back between the two, and showed the reading once before that.
      have hs := hbefore s (by omega) hsc
      have hlast := hbefore (c - 1) (by omega) (by omega)
      have hchange := hafter c (Int.le_refl c) hct
      have hsmall := hz.small c
      simp only [localAt] at hge hne
      have hearlier := hbefore (t + z.offsetAt t - z.offsetAt s) (by omega) (by omega)
      refine hfirst (t + z.offsetAt t - z.offsetAt s) (by omega) ?_
      simp only [localAt]
      omega
    · have := hafter s hcs (by omega)
      simp only [localAt] at hge hne
      omega

/-- The first instant named for a reading is the one at which it is shown for the first time. -/
theorem earliest?_eq_some_iff (hz : z.Regular) {w t : Int} :
    (z.resolve w).earliest? = some t ↔ z.localAt t = w ∧ z.First t := by
  rw [Resolution.earliest?_eq_some_iff (hz.sorted w)]
  simp only [hz.mem_times, First]
  constructor
  · rintro ⟨rfl, hleast⟩
    exact ⟨rfl, hleast⟩
  · rintro ⟨rfl, hfirst⟩
    exact ⟨rfl, hfirst⟩

end Regular

end Zone

end CronScale.Calendar

namespace CronScale.Schedule

open CronScale.Calendar

/-- The year of the second of the wall clock from which a search from an instant starts. -/
def startYear (z : Zone) (after : Instant) : Int := Reading.year ⟨(z.reading after).seconds + 1, 0⟩

/-- The first second of the wall clock that a search from an instant no longer reaches. -/
def horizon (z : Zone) (after : Instant) : Int := endOfYear (startYear z after + 5)

namespace Recurrence

variable {r : Recurrence} {z : Zone} {after t : Instant}

/-- A walk through seconds in their order finds the first one that counts. -/
theorem scan_eq_some_iff {a b : Int} :
    r.scan z after (secondsFrom a b) = some t ↔
      ∃ w, a ≤ w ∧ w < b ∧ r.matchesReading w = true ∧ readingAfter? z after w = some t ∧
        ∀ v, a ≤ v → v < w → r.matchesReading v = true → readingAfter? z after v = none := by
  obtain ⟨n, hn⟩ : ∃ n : Nat, (b - a).toNat = n := ⟨_, rfl⟩
  induction n generalizing a with
  | zero =>
    rw [secondsFrom_eq_nil (by omega)]
    constructor
    · exact fun h => absurd h (Option.some_ne_none t).symm
    · rintro ⟨w, haw, hwb, _⟩
      omega
  | succ n ih =>
    rw [secondsFrom_eq_cons (by omega)]
    by_cases hcounts : r.matchesReading a = true ∧ (readingAfter? z after a).isSome = true
    · obtain ⟨hmatches, hsome⟩ := hcounts
      obtain ⟨u, hu⟩ := Option.isSome_iff_exists.1 hsome
      rw [scan_cons_of_matches hmatches, hu, Option.some_or]
      constructor
      · intro h
        exact ⟨a, Int.le_refl a, by omega, hmatches, hu.trans h, fun v hav hva => by omega⟩
      · rintro ⟨w, haw, _, _, hw, hnone⟩
        rcases Int.lt_or_eq_of_le haw with hlt | rfl
        · have hcleared := hnone a (Int.le_refl a) hlt hmatches
          exact absurd (hu.symm.trans hcleared) (Option.some_ne_none u)
        · exact hu.symm.trans hw
    · have hnone : r.matchesReading a = true → readingAfter? z after a = none := fun hmatches =>
        Option.not_isSome_iff_eq_none.1 fun hsome => hcounts ⟨hmatches, hsome⟩
      have hskip : r.scan z after (a :: secondsFrom (a + 1) b) =
          r.scan z after (secondsFrom (a + 1) b) := by
        cases hmatches : r.matchesReading a with
        | false => exact scan_cons_of_not_matches hmatches
        | true => rw [scan_cons_of_matches hmatches, hnone hmatches, Option.none_or]
      rw [hskip, ih (by omega)]
      constructor
      · rintro ⟨w, haw, hwb, hmatches, hw, hbefore⟩
        refine ⟨w, by omega, hwb, hmatches, hw, fun v hav hvw => ?_⟩
        rcases Int.lt_or_eq_of_le hav with hlt | rfl
        · exact hbefore v hlt hvw
        · exact hnone
      · rintro ⟨w, haw, hwb, hmatches, hw, hbefore⟩
        rcases Int.lt_or_eq_of_le haw with hlt | rfl
        · exact ⟨w, hlt, hwb, hmatches, hw, fun v hav => hbefore v (by omega)⟩
        · exact absurd (hw.symm.trans (hnone hmatches)) (Option.some_ne_none t)

/-- Whether a second is one at which a recurrence falls: the clock shows one of its readings, and
that for the first time. -/
structure FallsOn (r : Recurrence) (z : Zone) (t : Int) : Prop where
  reading : r.matchesReading (z.localAt t) = true
  first : z.First t

/-- An instant counts under a reading exactly if the reading is shown there for the first time. -/
theorem readingAfter?_eq_some_iff (hz : z.Regular) {w : Int} :
    readingAfter? z after w = some t ↔
      t.nanos = 0 ∧ z.localAt t.seconds = w ∧ z.First t.seconds ∧ after < t := by
  rw [readingAfter?_eq_some, Zone.earliest?, Option.map_eq_some_iff]
  simp only [hz.earliest?_eq_some_iff]
  constructor
  · rintro ⟨⟨s, ⟨hw, hfirst⟩, rfl⟩, hlt⟩
    exact ⟨rfl, hw, hfirst, hlt⟩
  · rintro ⟨hnanos, hw, hfirst, hlt⟩
    refine ⟨⟨t.seconds, ⟨hw, hfirst⟩, ?_⟩, hlt⟩
    rw [← hnanos]

/-- In a regular zone the next time is the first of all instants to come on which the recurrence
falls, if that lies within the horizon. -/
theorem nextAfter_eq_some_iff (hz : z.Regular) :
    r.nextAfter z after = some t ↔
      t.nanos = 0 ∧ after < t ∧ r.FallsOn z t.seconds ∧ z.localAt t.seconds < horizon z after ∧
        ∀ u, after < ⟨u, 0⟩ → r.FallsOn z u → t.seconds ≤ u := by
  have hstart : ∀ u : Int, after < ⟨u, 0⟩ → z.First u →
      (z.reading after).seconds + 1 ≤ z.localAt u := by
    intro u hlt hfirst
    have hseconds : after.seconds < u := by
      simpa only [Instant.lt_iff, Nat.not_lt_zero, and_false, or_false] using hlt
    exact hz.localAt_lt_of_first hfirst hseconds
  have hscan := nextAfter_eq_scan r z after
  simp only at hscan
  rw [hscan, scan_eq_some_iff]
  simp only [readingAfter?_eq_some_iff hz]
  constructor
  · rintro ⟨w, hw, hend, hmatches, ⟨hnanos, rfl, hfirst, hlt⟩, hnone⟩
    refine ⟨hnanos, hlt, ⟨hmatches, hfirst⟩, hend, fun u hu hfalls => ?_⟩
    -- An earlier instant would show an earlier reading, which the search would have met before.
    refine Int.le_of_not_gt fun hut => ?_
    have hread := hnone (z.localAt u) (hstart u hu hfalls.first)
      (hz.localAt_lt_of_first hfirst hut) hfalls.reading
    have hsome := (readingAfter?_eq_some_iff hz (t := ⟨u, 0⟩)).2 ⟨rfl, rfl, hfalls.first, hu⟩
    exact absurd (hsome.symm.trans hread) (Option.some_ne_none _)
  · rintro ⟨hnanos, hlt, hfalls, hend, hleast⟩
    obtain ⟨s, n⟩ := t
    simp only at hnanos hfalls hend hleast
    subst hnanos
    refine ⟨z.localAt s, hstart s hlt hfalls.first, hend, hfalls.reading,
      ⟨rfl, rfl, hfalls.first, hlt⟩, fun v _ hvs hmatches => ?_⟩
    refine Option.eq_none_iff_forall_ne_some.2 fun u hu => ?_
    obtain ⟨hnanos, rfl, hfirst, hltu⟩ := (readingAfter?_eq_some_iff hz).1 hu
    have hle := hleast u.seconds (hnanos ▸ hltu) ⟨hmatches, hfirst⟩
    rcases Int.lt_or_eq_of_le hle with hlt | heq
    · have := hz.localAt_lt_of_first hfirst hlt
      omega
    · rw [heq] at hvs
      omega

/-- A later search does not find an earlier time. -/
theorem nextAfter_le (hz : z.Regular) {after' t' : Instant} (h : r.nextAfter z after = some t)
    (hafter : after ≤ after') (h' : r.nextAfter z after' = some t') : t ≤ t' := by
  obtain ⟨_, _, _, _, hleast⟩ := (nextAfter_eq_some_iff hz).1 h
  obtain ⟨hnanos, hlt, hfalls, _⟩ := (nextAfter_eq_some_iff hz).1 h'
  have hlt := Instant.lt_of_le_of_lt hafter hlt
  have := hleast t'.seconds (hnanos ▸ hlt) hfalls
  rw [Instant.le_iff_not_lt, Instant.lt_iff]
  omega

/-- A search from a moment before the time found by an earlier one finds this time again, if it
lies within its horizon, and otherwise nothing. -/
theorem nextAfter_again (hz : z.Regular) {after' : Instant} (h : r.nextAfter z after = some t)
    (hafter : after ≤ after') (hbefore : after' < t) :
    r.nextAfter z after' = if z.localAt t.seconds < horizon z after' then some t else none := by
  obtain ⟨hnanos, _, hfalls, _, hleast⟩ := (nextAfter_eq_some_iff hz).1 h
  split
  · rename_i hreach
    refine (nextAfter_eq_some_iff hz).2 ⟨hnanos, hbefore, hfalls, hreach, ?_⟩
    exact fun u hu => hleast u (Instant.lt_of_le_of_lt hafter hu)
  · rename_i hreach
    refine Option.eq_none_iff_forall_ne_some.2 fun t' ht' => hreach ?_
    obtain ⟨_, _, _, hend', hleast'⟩ := (nextAfter_eq_some_iff hz).1 ht'
    have hge : t' ≤ t := by
      have := hleast' t.seconds (hnanos ▸ hbefore) hfalls
      rw [Instant.le_iff_not_lt, Instant.lt_iff]
      omega
    obtain rfl := Instant.le_antisymm (nextAfter_le hz h hafter ht') hge
    exact hend'

end Recurrence

theorem endOfYear_mono {y y' : Int} (h : y ≤ y') : endOfYear y ≤ endOfYear y' := by
  refine Int.le_of_not_gt fun hlt => ?_
  have hyear := year_le_iff.2 hlt
  exact Int.lt_irrefl _ (year_le_iff.1 (Int.le_trans hyear h))

/-- If the later search does not start in an earlier year, it reaches the time. -/
theorem Recurrence.nextAfter_of_startYear_le {r : Recurrence} {z : Zone} (hz : z.Regular)
    {after after' t : Instant} (h : r.nextAfter z after = some t) (hafter : after ≤ after')
    (hbefore : after' < t) (hyear : startYear z after ≤ startYear z after') :
    r.nextAfter z after' = some t := by
  obtain ⟨_, _, _, hend, _⟩ := (nextAfter_eq_some_iff hz).1 h
  refine (nextAfter_again hz h hafter hbefore).trans (if_pos ?_)
  exact Int.lt_of_lt_of_le hend (endOfYear_mono (Int.add_le_add_right hyear 5))

end CronScale.Schedule

namespace CronScale.Calendar.Zone

/-- A zone with two distances from universal time is regular if its changes lie far enough apart. -/
theorem regular_ofOffsets {name : String} {a b : Int} {offsetAt : Int → Int} (hab : b < a)
    (hday : a - b ≤ 86400) (hoffset : ∀ t, offsetAt t = a ∨ offsetAt t = b)
    (hapart : ∀ s t, offsetAt s ≠ offsetAt (s - 1) → offsetAt t ≠ offsetAt (t - 1) → s < t →
      s + 2 * 86400 < t) : (ofOffsets name [a, b] offsetAt).Regular := by
  have htimes : ∀ w, ((ofOffsets name [a, b] offsetAt).resolve w).times =
      candidates [a, b] offsetAt w := by
    intro w
    have hlength : (candidates [a, b] offsetAt w).length ≤ 2 := by
      rw [candidates, List.length_map]
      exact List.length_filter_le _ _
    simp only [ofOffsets]
    generalize candidates [a, b] offsetAt w = ts at hlength
    match ts, hlength with
    | [], _ => rfl
    | [_], _ => rfl
    | [_, _], _ => rfl
  refine ⟨fun w t => ?_, fun w => ?_, fun t => ?_, hapart⟩
  · rw [htimes]
    refine ⟨offsetAt_of_mem_candidates, ?_⟩
    rintro rfl
    have hmem : offsetAt t ∈ [a, b] := by
      rcases hoffset t with h | h <;> rw [h] <;> simp
    refine List.mem_map.2 ⟨offsetAt t, List.mem_filter.2 ⟨hmem, ?_⟩, ?_⟩
    · simp only [localAt, ofOffsets, Int.add_sub_cancel, beq_self_eq_true]
    · simp only [localAt, ofOffsets, Int.add_sub_cancel]
  · rw [htimes, candidates, List.pairwise_map]
    refine List.Pairwise.filter _ ?_
    simp only [List.pairwise_cons, List.mem_singleton, forall_eq, List.not_mem_nil, false_implies,
      implies_true, List.Pairwise.nil, and_true]
    omega
  · have ht := hoffset t
    have hs := hoffset (t - 1)
    simp only [ofOffsets]
    omega

/-- The clocks of Sao Paulo. -/
def saoPaulo : Zone := ofOffsets "America/Sao_Paulo" [hours (-2), hours (-3)] saoPauloOffset

theorem regular_saoPaulo : saoPaulo.Regular := by
  have hstart : hourOf 2017 10 15 3 = 1508036400 := by decide +kernel
  have hend : hourOf 2018 2 18 2 = 1518919200 := by decide +kernel
  have hstart' : hourOf 2018 11 4 3 = 1541300400 := by decide +kernel
  have hend' : hourOf 2019 2 17 2 = 1550368800 := by decide +kernel
  refine regular_ofOffsets (by decide) (by decide) (fun t => ?_) (fun s t hs ht hst => ?_)
  · unfold saoPauloOffset
    split
    · exact .inl rfl
    · exact .inr rfl
  · simp only [saoPauloOffset, hstart, hend, hstart', hend', hours] at hs ht
    split at hs <;> split at hs <;> split at ht <;> split at ht <;> omega

theorem resolve_fixed (name : String) (offset w : Int) :
    (fixed name offset).resolve w = .unique (w - offset) := by
  simp [fixed, ofOffsets, candidates]

/-- A zone whose clocks are never changed is regular. -/
theorem regular_fixed (name : String) (offset : Int) : (fixed name offset).Regular where
  mem_times := by
    intro w t
    rw [resolve_fixed, Resolution.times, List.mem_singleton]
    show t = w - offset ↔ t + offset = w
    omega
  sorted := by
    intro w
    rw [resolve_fixed]
    exact List.pairwise_singleton _ _
  small := fun t => by simp [fixed, ofOffsets]
  apart := fun s t hs => absurd rfl hs

end CronScale.Calendar.Zone
