import CronScale.Calendar.Date
/-!
# Dates and day numbers

A day number resolves into a date that exists, and every date that exists is the one its day number
resolves into. Both are proved from the parts of a day number: first the year is found, since years
follow one another without gaps (`yearAndDay_spec`), then the month within the year. Two
consequences are used by the search for the next time of a schedule: where the month after a date
begins, and that all days before that are in the same month.
-/

namespace CronScale.Calendar

/-- The days before a year, counted in cycles of 400 years, centuries, groups of four years and
single years. -/
theorem daysBeforeYear_parts {c a g s : Int} (ha : 0 ≤ a ∧ a ≤ 3) (hg : 0 ≤ g ∧ g ≤ 24)
    (hs : 0 ≤ s ∧ s ≤ 3) :
    daysBeforeYear (c * 400 + a * 100 + g * 4 + s + 1) =
      c * 146097 + a * 36524 + g * 1461 + s * 365 := by
  unfold daysBeforeYear
  have h4 : (c * 400 + a * 100 + g * 4 + s + 1 - 1 : Int) / 4 = c * 100 + a * 25 + g := by omega
  have h100 : (c * 400 + a * 100 + g * 4 + s + 1 - 1 : Int) / 100 = c * 4 + a := by omega
  have h400 : (c * 400 + a * 100 + g * 4 + s + 1 - 1 : Int) / 400 = c := by omega
  omega

/-- Counting up the smallest part that can be counted up gives the parts of the next year. -/
theorem lt_daysBeforeYear_succ {c a g s k : Int} (ha : 0 ≤ a ∧ a ≤ 3) (hg : 0 ≤ g ∧ g ≤ 24)
    (hs : 0 ≤ s ∧ s ≤ 3) (hcycle : a = 3 → g * 1461 + k < 36525)
    (hcentury : a < 3 → g * 1461 + k < 36524) (hgroup : k < 1461)
    (hsingle : s < 3 → k < (s + 1) * 365) :
    c * 146097 + a * 36524 + g * 1461 + k <
      daysBeforeYear (c * 400 + a * 100 + g * 4 + s + 1 + 1) := by
  by_cases h1 : s < 3
  · have h := daysBeforeYear_parts (c := c) (s := s + 1) ha hg (by omega)
    have := hsingle h1
    rw [← Int.add_assoc] at h
    omega
  by_cases h2 : g < 24
  · have h := daysBeforeYear_parts (c := c) (g := g + 1) (s := 0) ha (by omega) (by omega)
    rw [show c * 400 + a * 100 + g * 4 + s + 1 + 1 = c * 400 + a * 100 + (g + 1) * 4 + 0 + 1 by
      omega]
    omega
  by_cases h3 : a < 3
  · have h := daysBeforeYear_parts (c := c) (a := a + 1) (g := 0) (s := 0) (by omega) (by omega)
      (by omega)
    have := hcentury h3
    rw [show c * 400 + a * 100 + g * 4 + s + 1 + 1 = c * 400 + (a + 1) * 100 + 0 * 4 + 0 + 1 by
      omega]
    omega
  · have h := daysBeforeYear_parts (c := c + 1) (a := 0) (g := 0) (s := 0) (by omega) (by omega)
      (by omega)
    have := hcycle (by omega)
    rw [show c * 400 + a * 100 + g * 4 + s + 1 + 1 = (c + 1) * 400 + 0 * 100 + 0 * 4 + 0 + 1 by
      omega]
    omega

/-- The year found for a day number has begun and is not yet over. -/
theorem yearAndDay_spec (n : Int) :
    daysBeforeYear (yearAndDay n).1 + (yearAndDay n).2 = n + epochOffset ∧
      n + epochOffset < daysBeforeYear ((yearAndDay n).1 + 1) := by
  unfold yearAndDay
  generalize n + epochOffset = z
  simp only []
  have hz := Int.mul_ediv_add_emod z 146097
  have hr0 := Int.emod_nonneg z (show (146097 : Int) ≠ 0 by decide)
  have hr1 := Int.emod_lt_of_pos z (show (0 : Int) < 146097 by decide)
  generalize z / 146097 = c at *
  generalize hr : (z % 146097).toNat = r
  generalize ha : min 3 (r / 36524) = a
  generalize hr1 : r - a * 36524 = r1
  generalize hg : r1 / 1461 = g
  generalize hr2 : r1 - g * 1461 = r2
  generalize hs : min 3 (r2 / 365) = s
  have ha3 : a ≤ 3 ∧ a * 36524 ≤ r := by omega
  have hg24 : g ≤ 24 ∧ g * 1461 ≤ r1 := by omega
  have hs3 : s ≤ 3 ∧ s * 365 ≤ r2 := by omega
  rw [daysBeforeYear_parts (by omega) (by omega) (by omega)]
  have hnext := lt_daysBeforeYear_succ (c := c) (a := a) (g := g) (s := s) (k := r2) (by omega)
    (by omega) (by omega) (by omega) (by omega) (by omega) (by omega)
  constructor
  · omega
  · omega

theorem daysBeforeYear_mono {y y' : Int} (h : y ≤ y') : daysBeforeYear y ≤ daysBeforeYear y' := by
  unfold daysBeforeYear
  omega

/-- The days of months of given lengths. -/
def totalDays : List Nat → Nat
  | [] => 0
  | l :: ls => l + totalDays ls

@[simp] theorem totalDays_nil : totalDays [] = 0 := rfl

@[simp] theorem totalDays_cons (l : Nat) (ls : List Nat) :
    totalDays (l :: ls) = l + totalDays ls := rfl

theorem totalDays_append (ls ls' : List Nat) :
    totalDays (ls ++ ls') = totalDays ls + totalDays ls' := by
  induction ls with
  | nil => exact (Nat.zero_add _).symm
  | cons l ls ih => rw [List.cons_append, totalDays_cons, totalDays_cons, ih, Nat.add_assoc]

theorem foldl_eq_totalDays (ls : List Nat) (n : Nat) :
    ls.foldl (· + ·) n = n + totalDays ls := by
  induction ls generalizing n with
  | nil => rfl
  | cons l ls ih => rw [List.foldl_cons, ih, totalDays_cons, Nat.add_assoc]

theorem daysBeforeYear_succ (y : Int) :
    daysBeforeYear (y + 1) = daysBeforeYear y + totalDays (monthLengths y) := by
  have hlength : (totalDays (monthLengths y) : Int) = if isLeapYear y then 366 else 365 := by
    cases h : isLeapYear y <;> simp [monthLengths, h]
  rw [hlength]
  unfold daysBeforeYear isLeapYear
  by_cases h4 : y % 4 = 0
  · by_cases h100 : y % 100 = 0
    · by_cases h400 : y % 400 = 0
      · simp [h4, h100, h400]; omega
      · simp [h4, h100, h400]; omega
    · simp [h4, h100]; omega
  · simp [h4]; omega

/-- There is only one way to resolve a day number into a year and a day of it. -/
theorem yearAndDay_eq {n y : Int} {k : Nat} (h : n + epochOffset = daysBeforeYear y + k)
    (hk : k < totalDays (monthLengths y)) : yearAndDay n = (y, k) := by
  obtain ⟨h1, h2⟩ := yearAndDay_spec n
  have hy : (yearAndDay n).1 = y := by
    rcases Int.lt_trichotomy (yearAndDay n).1 y with hlt | heq | hgt
    · have := daysBeforeYear_mono (show (yearAndDay n).1 + 1 ≤ y from hlt)
      omega
    · exact heq
    · have := daysBeforeYear_mono (show y + 1 ≤ (yearAndDay n).1 from hgt)
      have := daysBeforeYear_succ y
      omega
  rw [hy] at h1
  exact Prod.ext hy (by omega)

theorem totalDays_take_add_lt {ls : List Nat} {i d : Nat} (hi : i < ls.length) (hd : d < ls[i]) :
    totalDays (ls.take i) + d < totalDays ls := by
  have h := congrArg totalDays (List.take_append_drop i ls)
  rw [totalDays_append, List.drop_eq_getElem_cons hi, totalDays_cons] at h
  omega

theorem monthAndDay_eq (ls : List Nat) (m : Nat) {i d : Nat} (hi : i < ls.length) (hd : d < ls[i]) :
    monthAndDay ls m (totalDays (ls.take i) + d) = (m + i, d + 1) := by
  induction ls generalizing m i with
  | nil => exact absurd hi (Nat.not_lt_zero i)
  | cons l ls ih =>
    cases i with
    | zero =>
      rw [List.take_zero, totalDays_nil, Nat.zero_add, monthAndDay, if_pos (by simpa using hd)]
      rfl
    | succ i =>
      have := ih (m + 1) (i := i) (by simpa using hi) (by simpa using hd)
      rw [List.take_succ_cons, totalDays_cons, monthAndDay, if_neg (by omega), Nat.add_assoc,
        Nat.add_sub_cancel_left, this, Nat.add_assoc, Nat.add_comm 1]

theorem exists_month_of_lt (ls : List Nat) {k : Nat} (h : k < totalDays ls) :
    ∃ (i d : Nat) (hi : i < ls.length), d < ls[i] ∧ k = totalDays (ls.take i) + d := by
  induction ls generalizing k with
  | nil => exact absurd h (Nat.not_lt_zero k)
  | cons l ls ih =>
    by_cases hl : k < l
    · exact ⟨0, k, by simp, hl, by simp⟩
    · obtain ⟨i, d, hi, hd, hk⟩ := ih (k := k - l) (by simp only [totalDays_cons] at h; omega)
      exact ⟨i + 1, d, by simpa using hi, by simpa using hd, by simp; omega⟩

@[simp] theorem length_monthLengths (y : Int) : (monthLengths y).length = 12 := rfl

theorem daysBeforeMonth_eq (y : Int) (m : Nat) :
    daysBeforeMonth y m = totalDays ((monthLengths y).take (m - 1)) := by
  rw [daysBeforeMonth, foldl_eq_totalDays, Nat.zero_add]

theorem monthLength_eq {y : Int} {m : Nat} (h1 : 1 ≤ m) (hm : m - 1 < (monthLengths y).length) :
    monthLength y m = (monthLengths y)[m - 1] := by
  rw [monthLength, if_neg (by omega), List.getElem?_eq_getElem hm, Option.getD_some]

/-- The next month of a year begins when all days of the month have passed. -/
theorem daysBeforeMonth_succ (y : Int) {m : Nat} (h1 : 1 ≤ m) (h12 : m ≤ 12) :
    daysBeforeMonth y (m + 1) = daysBeforeMonth y m + monthLength y m := by
  have hm : m - 1 < (monthLengths y).length := by rw [length_monthLengths]; omega
  rw [daysBeforeMonth_eq, daysBeforeMonth_eq, monthLength_eq h1 hm,
    show m + 1 - 1 = m - 1 + 1 by omega, List.take_succ_eq_append_getElem hm, totalDays_append]
  rfl

namespace Date

theorem exists?_iff {d : Date} : d.exists? = true ↔
    1 ≤ d.month ∧ d.month ≤ 12 ∧ 1 ≤ d.day ∧ d.day ≤ monthLength d.year d.month := by
  simp [exists?, and_assoc]

theorem ofDayNumber_of {n y : Int} {k m d : Nat} (hy : yearAndDay n = (y, k))
    (hm : monthAndDay (monthLengths y) 1 k = (m, d)) : ofDayNumber n = ⟨y, m, d⟩ := by
  rw [ofDayNumber, hy]
  simp only [hm]

theorem year_ofDayNumber (n : Int) : (ofDayNumber n).year = (yearAndDay n).1 := by
  rw [ofDayNumber_of (Prod.eta _).symm (Prod.eta _).symm]

/-- A date that exists is the one that its day number resolves into. -/
theorem ofDayNumber_dayNumber {d : Date} (h : d.exists? = true) : ofDayNumber d.dayNumber = d := by
  obtain ⟨h1, h12, hday, hlen⟩ := exists?_iff.1 h
  have hm : d.month - 1 < (monthLengths d.year).length := by rw [length_monthLengths]; omega
  rw [monthLength_eq h1 hm] at hlen
  have hk := totalDays_take_add_lt hm (show d.day - 1 < (monthLengths d.year)[d.month - 1] by omega)
  rw [← daysBeforeMonth_eq] at hk
  have hy := yearAndDay_eq (n := d.dayNumber) (by unfold dayNumber; omega) hk
  have hday' : d.day - 1 < (monthLengths d.year)[d.month - 1] := by omega
  have hmonth := monthAndDay_eq _ 1 hm hday'
  rw [← daysBeforeMonth_eq, Nat.add_sub_cancel' h1, Nat.sub_add_cancel hday] at hmonth
  exact ofDayNumber_of hy hmonth

/-- A day number resolves into a date that exists and has that number. -/
theorem ofDayNumber_spec (n : Int) :
    (ofDayNumber n).exists? = true ∧ (ofDayNumber n).dayNumber = n := by
  obtain ⟨h1, h2⟩ := yearAndDay_spec n
  rw [daysBeforeYear_succ] at h2
  generalize hyk : yearAndDay n = yk at *
  obtain ⟨y, k⟩ := yk
  simp only at h1 h2
  obtain ⟨i, d, hi, hd, hk⟩ := exists_month_of_lt (monthLengths y) (k := k) (by omega)
  have hof : ofDayNumber n = ⟨y, 1 + i, d + 1⟩ :=
    ofDayNumber_of hyk (hk ▸ monthAndDay_eq _ 1 hi hd)
  rw [hof]
  constructor
  · refine exists?_iff.2 ⟨Nat.le_add_right 1 i, ?_, Nat.le_add_left 1 d, ?_⟩
    · rw [length_monthLengths] at hi
      exact Nat.add_comm 1 i ▸ hi
    · rw [monthLength_eq (Nat.le_add_right 1 i) (by simpa using hi)]
      simpa using Nat.succ_le_of_lt hd
  · unfold dayNumber
    simp only [daysBeforeMonth_eq, Nat.add_sub_cancel_left]
    omega

theorem dayNumber_ofDayNumber (n : Int) : (ofDayNumber n).dayNumber = n := (ofDayNumber_spec n).2

theorem exists_ofDayNumber (n : Int) : (ofDayNumber n).exists? = true := (ofDayNumber_spec n).1

/-- The first day of the month after that of a date. -/
def firstOfNextMonth (d : Date) : Date :=
  if d.month = 12 then ⟨d.year + 1, 1, 1⟩ else ⟨d.year, d.month + 1, 1⟩

/-- The next month begins after as many days as are left of the month of a date. -/
theorem dayNumber_firstOfNextMonth {d : Date} (h : d.exists? = true) :
    d.firstOfNextMonth.dayNumber = d.dayNumber + (monthLength d.year d.month - d.day) + 1 := by
  obtain ⟨h1, h12, -, -⟩ := exists?_iff.1 h
  have hmonth := daysBeforeMonth_succ d.year h1 h12
  unfold firstOfNextMonth dayNumber
  split
  · rename_i hm
    rw [hm] at hmonth ⊢
    have hyear := daysBeforeYear_succ d.year
    have h13 : daysBeforeMonth d.year (12 + 1) = totalDays (monthLengths d.year) := by
      rw [daysBeforeMonth_eq]
      rfl
    have hfirst : daysBeforeMonth (d.year + 1) 1 = 0 := rfl
    simp only [hfirst, hyear]
    omega
  · simp only [hmonth]
    omega

theorem lt_dayNumber_firstOfNextMonth (n : Int) :
    n < (ofDayNumber n).firstOfNextMonth.dayNumber := by
  have h := exists_ofDayNumber n
  have := dayNumber_firstOfNextMonth h
  have := (exists?_iff.1 h).2.2.2
  rw [dayNumber_ofDayNumber] at *
  omega

/-- All days before the next month begins are in the same month. -/
theorem month_ofDayNumber {n n' : Int} (h : n ≤ n')
    (h' : n' < (ofDayNumber n).firstOfNextMonth.dayNumber) :
    (ofDayNumber n').month = (ofDayNumber n).month := by
  obtain ⟨hex, hn⟩ := ofDayNumber_spec n
  obtain ⟨h1, h12, hday, hlen⟩ := exists?_iff.1 hex
  rw [dayNumber_firstOfNextMonth hex] at h'
  generalize ofDayNumber n = d at *
  obtain ⟨y, m, k⟩ := d
  simp only at h1 h12 hday hlen h'
  have hlater : Date.exists? ⟨y, m, k + (n' - n).toNat⟩ = true :=
    exists?_iff.2 ⟨h1, h12, Nat.le_add_right_of_le hday, by simp only; omega⟩
  have hn' : dayNumber ⟨y, m, k + (n' - n).toNat⟩ = n' := by
    unfold dayNumber at *
    simp only at hn ⊢
    omega
  rw [← hn', ofDayNumber_dayNumber hlater]

/-- A year is over when its last day has passed. -/
theorem year_le_iff {n y : Int} : (ofDayNumber n).year ≤ y ↔ n ≤ dayNumber ⟨y, 12, 31⟩ := by
  obtain ⟨h1, h2⟩ := yearAndDay_spec n
  have hlast : dayNumber ⟨y, 12, 31⟩ + epochOffset + 1 = daysBeforeYear (y + 1) := by
    have h13 : daysBeforeMonth y 12 + 31 = totalDays (monthLengths y) := by
      rw [daysBeforeMonth_eq, ← show monthLength y 12 = 31 from rfl, ← daysBeforeMonth_eq,
        ← daysBeforeMonth_succ y (by omega) (by omega), daysBeforeMonth_eq]
      rfl
    have := daysBeforeYear_succ y
    unfold dayNumber
    simp only
    omega
  rw [year_ofDayNumber]
  constructor
  · intro h
    have := daysBeforeYear_mono (show (yearAndDay n).1 + 1 ≤ y + 1 by omega)
    omega
  · intro h
    rcases Int.lt_or_le y (yearAndDay n).1 with hlt | hle
    · have := daysBeforeYear_mono (show y + 1 ≤ (yearAndDay n).1 from hlt)
      omega
    · exact hle

end Date

end CronScale.Calendar
