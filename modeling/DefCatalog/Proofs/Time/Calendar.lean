import DefCatalog.Time.Calendar

/-!
# Days and dates

The date of a day is in the calendar, and the day of that date is the day itself. A day that lies
between the first of January of one year and the last of December of another has a date in these
years or between them.
-/

namespace DefCatalog.Date

/-- The days of a cycle of 400 years before a year of it. -/
def daysBefore (yearOfCycle : Nat) : Nat :=
  365 * yearOfCycle + yearOfCycle / 4 - yearOfCycle / 100

/-- The year of a cycle in which a day of it lies. -/
def yearOfCycle (dayOfCycle : Nat) : Nat :=
  (dayOfCycle - dayOfCycle / 1460 + dayOfCycle / 36524 - dayOfCycle / 146096) / 365

theorem yearOfCycle_mono {day later : Nat} (h : day ≤ later) :
    yearOfCycle day ≤ yearOfCycle later := by
  induction h with
  | refl => exact Nat.le_refl _
  | @step later _ ih =>
    refine Nat.le_trans ih ?_
    unfold yearOfCycle
    omega

theorem yearOfCycle_daysBefore : ∀ year < 400, yearOfCycle (daysBefore year) = year ∧
    yearOfCycle (daysBefore (year + 1) - 1) = year := by
  decide +kernel

variable {day : Nat}

theorem yearOfCycle_lt (h : day < 146097) : yearOfCycle day < 400 := by
  unfold yearOfCycle
  omega

theorem daysBefore_le (h : day < 146097) : daysBefore (yearOfCycle day) ≤ day := by
  have hyear := yearOfCycle_lt h
  match hbefore : yearOfCycle day with
  | 0 => exact Nat.zero_le day
  | year + 1 =>
    -- otherwise the day would come no later than the last one of the year before
    apply Nat.le_of_not_lt
    intro hless
    have hmono := yearOfCycle_mono (Nat.le_sub_one_of_lt hless)
    have hlast := (yearOfCycle_daysBefore year (by omega)).2
    omega

theorem lt_daysBefore_succ (h : day < 146097) :
    day < daysBefore (yearOfCycle day + 1) ∨ yearOfCycle day = 399 ∧ day = 146096 := by
  have hyear := yearOfCycle_lt h
  by_cases hlast : yearOfCycle day = 399
  · have hend : daysBefore (399 + 1) = 146096 := by decide
    rw [hlast, hend]
    omega
  · left
    apply Nat.lt_of_not_le
    intro hmore
    have hmono := yearOfCycle_mono hmore
    have hfirst := (yearOfCycle_daysBefore (yearOfCycle day + 1) (by omega)).1
    omega

theorem daysBefore_succ_le (year : Nat) : daysBefore (year + 1) ≤ daysBefore year + 366 := by
  unfold daysBefore
  omega

theorem isLeap_of_lt {year : Nat} (h : daysBefore year + 365 < daysBefore (year + 1)) :
    isLeap (year + 1) = true := by
  unfold daysBefore at h
  have hfour : ((year : Int) + 1) % 4 = 0 := by omega
  have hcentury : ((year : Int) + 1) % 100 ≠ 0 := by omega
  simp [isLeap, hfour, hcentury]

/-- The days before the first of March of a year, from the first of March of the year zero on. -/
def daysBeforeMarch (year : Int) : Int :=
  365 * year + year / 4 - year / 100 + year / 400

theorem daysBeforeMarch_mono {year later : Int} (h : year ≤ later) :
    daysBeforeMarch year + 365 * (later - year) ≤ daysBeforeMarch later := by
  -- centuries are counted in leap years, so that leaving them out keeps the order
  have hcentury (y : Int) : y / 100 = y / 4 / 25 := by omega
  have hleaps : year / 4 - year / 4 / 25 ≤ later / 4 - later / 4 / 25 := by
    have hfour : year / 4 ≤ later / 4 := by omega
    omega
  have hcycles : year / 400 ≤ later / 400 := by omega
  unfold daysBeforeMarch
  rw [hcentury year, hcentury later]
  omega

theorem daysInMonth_le (year : Int) (month : Nat) : daysInMonth year month ≤ 31 := by
  unfold daysInMonth
  split
  · split <;> decide
  · split <;> decide

/-- The date of a day of a year that begins in March. -/
def ofDayOfYear (year : Int) (dayOfYear : Nat) : Date :=
  let month := (5 * dayOfYear + 2) / 153
  let day := dayOfYear - (153 * month + 2) / 5 + 1
  if month < 10 then ⟨year, month + 3, day⟩ else ⟨year + 1, month - 9, day⟩

theorem toDays_ofDayOfYear (year : Int) {dayOfYear : Nat} (h : dayOfYear ≤ 365) :
    (ofDayOfYear year dayOfYear).toDays =
      daysBeforeMarch year + dayOfYear - epochOffset := by
  unfold ofDayOfYear toDays daysBeforeMarch
  dsimp only
  split
  · have hmonth : ((5 * dayOfYear + 2) / 153 + 3 + 9) % 12 = (5 * dayOfYear + 2) / 153 := by omega
    rw [if_neg (by dsimp only; omega)]
    dsimp only
    rw [hmonth]
    omega
  · have hmonth : ((5 * dayOfYear + 2) / 153 - 9 + 9) % 12 = (5 * dayOfYear + 2) / 153 := by omega
    rw [if_pos (by dsimp only; omega)]
    dsimp only
    rw [hmonth]
    omega

theorem isValid_ofDayOfYear (year : Int) {dayOfYear : Nat}
    (h : dayOfYear < 365 ∨ dayOfYear = 365 ∧ isLeap (year + 1) = true) :
    (ofDayOfYear year dayOfYear).IsValid := by
  unfold ofDayOfYear IsValid
  dsimp only
  split
  · dsimp only
    refine ⟨by omega, by omega, by omega, ?_⟩
    unfold daysInMonth
    rw [if_neg (by omega)]
    split <;> omega
  · dsimp only
    refine ⟨by omega, by omega, by omega, ?_⟩
    unfold daysInMonth
    split
    · split
      · omega
      · rename_i hcommon
        have hday : dayOfYear < 365 := h.resolve_right fun hleap ↦ hcommon hleap.2
        omega
    · split <;> omega

theorem leaps_add_cycles {year : Nat} (h : year < 400) (cycle : Int) :
    (year + cycle * 400) / 4 - (year + cycle * 400) / 100 + (year + cycle * 400) / 400 =
      year / 4 - year / 100 + 97 * cycle := by
  have hfour : (year + cycle * 400) / 4 = year / 4 + 100 * cycle := by omega
  have hcentury : (year + cycle * 400) / 100 = year / 100 + 4 * cycle := by omega
  have hcycle : (year + cycle * 400) / 400 = cycle := by omega
  omega

theorem isLeap_add_cycles (year cycle : Int) : isLeap (year + cycle * 400) = isLeap year := by
  have hfour : (year + cycle * 400) % 4 = year % 4 := by omega
  have hcentury : (year + cycle * 400) % 100 = year % 100 := by omega
  have hcycle : (year + cycle * 400) % 400 = year % 400 := by omega
  unfold isLeap
  rw [hfour, hcentury, hcycle]

/-- The date of a day is a day of a year of a cycle. -/
theorem exists_ofDays_eq (days : Int) : ∃ (year : Int) (dayOfYear : Nat),
    ofDays days = ofDayOfYear year dayOfYear ∧
      days = daysBeforeMarch year + dayOfYear - epochOffset ∧
      (dayOfYear < 365 ∨ dayOfYear = 365 ∧ isLeap (year + 1) = true) := by
  have hday : ((days + epochOffset) % 146097).toNat < 146097 := by omega
  generalize hdayOfCycle : ((days + epochOffset) % 146097).toNat = dayOfCycle at hday
  have hyear := yearOfCycle_lt hday
  have hfirst := daysBefore_le hday
  have hlast := lt_daysBefore_succ hday
  refine ⟨yearOfCycle dayOfCycle + (days + epochOffset) / 146097 * 400,
    dayOfCycle - daysBefore (yearOfCycle dayOfCycle), ?_, ?_, ?_⟩
  · unfold ofDays
    dsimp only
    rw [hdayOfCycle]
    rfl
  · have hcycle := leaps_add_cycles hyear ((days + epochOffset) / 146097)
    unfold daysBefore at hfirst ⊢
    unfold daysBeforeMarch
    generalize yearOfCycle dayOfCycle = year at *
    omega
  · have hleap := isLeap_add_cycles (yearOfCycle dayOfCycle + 1) ((days + epochOffset) / 146097)
    rw [Int.add_right_comm, hleap]
    rcases hlast with hinside | ⟨hend, rfl⟩
    · by_cases hlong : daysBefore (yearOfCycle dayOfCycle) + 365 <
          daysBefore (yearOfCycle dayOfCycle + 1)
      · have hmost := daysBefore_succ_le (yearOfCycle dayOfCycle)
        simp only [isLeap_of_lt hlong, and_true]
        omega
      · left
        omega
    · right
      rw [hend]
      decide

theorem toDays_ofDays (days : Int) : (ofDays days).toDays = days := by
  obtain ⟨year, dayOfYear, hdate, hdays, hlast⟩ := exists_ofDays_eq days
  rw [hdate, toDays_ofDayOfYear year (by omega), hdays]

theorem isValid_ofDays (days : Int) : (ofDays days).IsValid := by
  obtain ⟨year, dayOfYear, hdate, _, hlast⟩ := exists_ofDays_eq days
  rw [hdate]
  exact isValid_ofDayOfYear year hlast

theorem year_ofDayOfYear (year : Int) (dayOfYear : Nat) :
    (ofDayOfYear year dayOfYear).year = if dayOfYear < 306 then year else year + 1 := by
  have hmonth : (5 * dayOfYear + 2) / 153 < 10 ↔ dayOfYear < 306 := by omega
  unfold ofDayOfYear
  dsimp only
  simp only [hmonth]
  split <;> rfl

theorem le_year_ofDays {year days : Int} (h : toDays ⟨year, 1, 1⟩ ≤ days) :
    year ≤ (ofDays days).year := by
  obtain ⟨marchYear, dayOfYear, hdate, hdays, hlast⟩ := exists_ofDays_eq days
  have hfirst : toDays ⟨year, 1, 1⟩ = daysBeforeMarch (year - 1) + 306 - epochOffset := by
    simp [toDays, daysBeforeMarch]
  rw [hdate, year_ofDayOfYear]
  apply Int.le_of_not_gt
  intro hless
  split at hless
  · have hmono := daysBeforeMarch_mono (Int.le_sub_one_of_lt hless)
    omega
  · have hmono := daysBeforeMarch_mono (Int.le_sub_one_of_lt hless)
    have hnext := daysBeforeMarch_mono (Int.le_add_one (Int.le_refl marchYear))
    omega

theorem year_ofDays_le {year days : Int} (h : days ≤ toDays ⟨year, 12, 31⟩) :
    (ofDays days).year ≤ year := by
  obtain ⟨marchYear, dayOfYear, hdate, hdays, hlast⟩ := exists_ofDays_eq days
  have hend : toDays ⟨year, 12, 31⟩ = daysBeforeMarch year + 305 - epochOffset := by
    simp [toDays, daysBeforeMarch]
  rw [hdate, year_ofDayOfYear]
  apply Int.le_of_not_gt
  intro hmore
  split at hmore
  · have hmono := daysBeforeMarch_mono (Int.le_of_lt hmore)
    omega
  · have hmono := daysBeforeMarch_mono (Int.le_of_lt_add_one hmore)
    omega

end DefCatalog.Date
