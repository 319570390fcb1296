import SkipPlatform.SkDate

set_option autoImplicit false

/-! The day and the week of a date. Before 1970 the days of the week are counted backwards. -/
namespace SkipPlatform.SKDate
open Gregorian

theorem daysOfMonths_eq (year : ℤ) {i : ℕ} (h : i ≤ 12) :
    daysOfMonths year i = some (monthStart (isLeap year) i) := by
  induction i with
  | zero => rfl
  | succ i ih =>
    rw [daysOfMonths, ih (by omega), daysInMonth_eq year (by omega)]
    rfl

def Date.inYear (date : Date) : ℤ := date.number - yearStart date.year

theorem Date.getDayOfYear_eq (date : Date) : date.getDayOfYear = some (date.inYear + 1) := by
  have month : (date.month.getCode - 1).toNat = date.month.index := by
    rw [Month.getCode_index, add_sub_cancel_right, Int.toNat_natCast]
  unfold Date.getDayOfYear
  rw [month, daysOfMonths_eq date.year date.month.index_lt.le, Option.bind_eq_bind, Option.bind_some]
  unfold Date.inYear Date.number dayNumber
  congr 1
  omega

variable {date : Date}

theorem Date.Valid.inYear_bounds (h : date.Valid) :
    0 ≤ date.inYear ∧ date.inYear < yearLength date.year := by
  have bounds := h.isDay.inYear
  have after := yearStart_succ date.year
  unfold Date.inYear Date.number
  omega

theorem yearLength_eq (year : ℤ) : (if leapYear year then 366 else 365) = yearLength year := by
  rw [leapYear_eq]
  rfl

theorem daysOfYears_eq (minYear : ℤ) (years : ℕ) :
    daysOfYears minYear years = yearStart (minYear + years) - yearStart minYear := by
  induction years with
  | zero =>
    rw [Nat.cast_zero, add_zero, sub_self]
    rfl
  | succ years ih =>
    rw [daysOfYears, ih, yearLength_eq, Nat.cast_succ, ← add_assoc, yearStart_succ]
    omega

theorem daysBetween_eq {minYear maxYear : ℤ} (h : minYear ≤ maxYear) :
    daysBetween minYear maxYear = yearStart maxYear - yearStart minYear := by
  unfold daysBetween
  rw [daysOfYears_eq, Int.toNat_of_nonneg (by omega), add_sub_cancel]

def Day.ofNumber (n : ℤ) : Day :=
  match weekday n with
  | 0 => .monday
  | 1 => .tuesday
  | 2 => .wednesday
  | 3 => .thursday
  | 4 => .friday
  | 5 => .saturday
  | _ => .sunday

theorem weekday_bounds (n : ℤ) : 0 ≤ weekday n ∧ weekday n < 7 := by
  unfold weekday
  omega

theorem Day.getCode_ofNumber (n : ℤ) : (Day.ofNumber n).getCode = weekday n + 1 := by
  obtain ⟨first, last⟩ := weekday_bounds n
  unfold Day.ofNumber
  generalize weekday n = w at *
  interval_cases w <;> rfl

theorem Day.ofNumber_inj {n n' : ℤ} : Day.ofNumber n = Day.ofNumber n' ↔ weekday n = weekday n' := by
  refine ⟨fun same => ?_, fun same => by rw [Day.ofNumber, same, ← Day.ofNumber]⟩
  have code := congrArg Day.getCode same
  rw [Day.getCode_ofNumber, Day.getCode_ofNumber] at code
  omega

theorem Day.dayForCode_number {n : ℤ} (h : 0 ≤ n) :
    Day.dayForCode (n.tmod 7 + 1) = some (Day.ofNumber n) := by
  obtain ⟨first, last⟩ := weekday_bounds n
  rw [Int.tmod_eq_emod_of_nonneg h, Day.ofNumber]
  unfold weekday at *
  generalize n % 7 = w at *
  interval_cases w <;> rfl

/-- Before 1970 the number of the day that `getWeekDay` finds falls as time goes on. -/
def Date.weekDayNumber (date : Date) : ℤ := if 1970 ≤ date.year then date.number else 2 - date.number

theorem Date.number_eq (date : Date) : date.number = yearStart date.year + date.inYear := by
  unfold Date.inYear
  omega

theorem yearStart_epoch : yearStart 1970 = 719162 := rfl

theorem Date.daysSince_eq {date : Date} (since : 1970 ≤ date.year) :
    date.daysSince 1970 = some (date.number - 719162) := by
  have years := daysBetween_eq since
  have epoch := yearStart_epoch
  have number := date.number_eq
  rw [Date.daysSince, if_pos since, Date.getDayOfYear_eq, Option.bind_eq_bind, Option.bind_some]
  congr 1
  omega

theorem Date.daysUntil_eq {date : Date} (before : date.year < 1970) :
    date.daysUntil 1970 = some (719161 - date.number) := by
  have years := daysBetween_eq (show date.year + 1 ≤ 1970 by omega)
  have epoch := yearStart_epoch
  have number := date.number_eq
  have after := yearStart_succ date.year
  rw [Date.daysUntil, Date.getDayOfYear_eq, Option.bind_eq_bind, Option.bind_some]
  rw [← yearLength_eq] at after
  split_ifs at after ⊢ <;> congr 1 <;> omega

theorem Date.Valid.getWeekDay_eq {date : Date} (h : date.Valid) :
    date.getWeekDay = some (Day.ofNumber date.weekDayNumber) := by
  have bounds := h.inYear_bounds
  have epoch := yearStart_epoch
  have number := date.number_eq
  unfold Date.getWeekDay Date.weekDayNumber
  by_cases since : 1970 ≤ date.year
  · have later := yearStart_mono since
    rw [if_pos since, if_pos since, Date.daysSince_eq since]
    refine (Day.dayForCode_number (n := date.number - 719162 + 3) (by omega)).trans ?_
    rw [Option.some_inj, Day.ofNumber_inj]
    unfold weekday
    omega
  · have later := yearStart_mono (show date.year + 1 ≤ 1970 by omega)
    have after := yearStart_succ date.year
    rw [if_neg since, if_neg since, Date.daysUntil_eq (not_le.mp since)]
    refine (Day.dayForCode_number (by omega)).trans ?_
    rw [Option.some_inj, Day.ofNumber_inj]
    unfold weekday
    omega

variable {year : ℤ}

theorem p_eq (h : 0 ≤ year) : p year = weekday (yearStart (year + 1)) := by
  unfold p weekday yearStart
  rw [Int.tdiv_eq_ediv_of_nonneg h, Int.tdiv_eq_ediv_of_nonneg h, Int.tdiv_eq_ediv_of_nonneg h,
    Int.tmod_eq_emod_of_nonneg (by omega), add_sub_cancel_right]
  omega

theorem p_neg (h : year < 0) : p year ≤ 0 := by
  obtain ⟨years, rfl⟩ : ∃ years, year = -years := ⟨-year, by omega⟩
  unfold p
  rw [Int.neg_tdiv, Int.neg_tdiv, Int.neg_tdiv,
    show -years + -years.tdiv 4 - -years.tdiv 100 + -years.tdiv 400 =
      -(years + years.tdiv 4 - years.tdiv 100 + years.tdiv 400) by ring, Int.neg_tmod]
  have rest := Int.tmod_nonneg 7 (show 0 ≤ years + years.tdiv 4 - years.tdiv 100 + years.tdiv 400 by
    rw [Int.tdiv_eq_ediv_of_nonneg, Int.tdiv_eq_ediv_of_nonneg, Int.tdiv_eq_ediv_of_nonneg] <;> omega)
  omega

theorem weeks_eq (h : 1 ≤ year) :
    weeks year = 52 + if weekday (yearStart (year + 1)) = 4 ∨ weekday
    (yearStart year) = 3 then 1 else 0 := by
  unfold weeks
  rw [p_eq (show 0 ≤ year by omega), p_eq (show 0 ≤ year - 1 by omega), sub_add_cancel]

theorem weeks_before (h : year ≤ 0) : weeks year = 52 := by
  have zero : p 0 = 0 := rfl
  have last := p_neg (show year - 1 < 0 by omega)
  have this : p year ≤ 0 := by
    rcases h.eq_or_lt with rfl | h
    · exact zero.le
    · exact p_neg h
  unfold weeks
  rw [if_neg (by omega)]
  rfl

/-- The days since the first week began, from the days of the year and the day of the week it began
with. -/
def sinceWeek (inYear first : ℤ) : ℤ := if first ≤ 3 then inYear + first else inYear - (7 - first)

theorem isoWeekNumber_neg {year days first : ℤ} (h : days < 0) (late : 3 < first) (h' : first < 7) :
    isoWeekNumber year days first 3 = (year - 1, weeks (year - 1)) := by
  have number : (if leapYear (year - 1) = true then 366 else 365 + (first - 3)) / 7 + 1 = 53 := by
    split <;> omega
  have few : weeks (year - 1) = 52 ∨ weeks (year - 1) = 53 := by
    unfold weeks
    split
    · exact .inr rfl
    · exact .inl rfl
  unfold isoWeekNumber
  dsimp only
  rw [if_pos h, if_pos h, number]
  rcases few with few | few
  · rw [few, if_pos (by omega), if_neg (by omega)]
  · rw [few, if_neg (by omega)]

theorem isoWeekNumber_nonneg {year days first : ℤ} (h : 0 ≤ days) :
    isoWeekNumber year days first 3 =
      if days / 7 + 1 > weeks year then (year + 1, 1) else (year, days / 7 + 1) := by
  unfold isoWeekNumber
  dsimp only
  rw [if_neg h.not_gt, if_neg h.not_gt, if_pos rfl]

theorem sinceWeek_eq (d first : ℤ) :
    sinceWeek d first = d + first ∧ first ≤ 3 ∨ sinceWeek d first = d + first - 7 ∧ 3 < first := by
  unfold sinceWeek
  split <;> omega

/-- The week and its year as `getWeekDate` finds them for a day of a year that begins with a day of
the week. -/
def foundWeek (year d first : ℤ) : ℤ × ℤ := isoWeekNumber year (sinceWeek d first) first 3

theorem foundWeek_since {year d : ℤ} (h : 1970 ≤ year) (first : 0 ≤ d) (last : d < yearLength year) :
    IsoWeek (yearStart year + d) (foundWeek year d (weekday (yearStart year))).1
      (foundWeek year d (weekday (yearStart year))).2 := by
  have bounds := weekday_bounds (yearStart year)
  have after := yearStart_succ year
  have long := yearLength_bounds year
  have since := sinceWeek_eq d (weekday (yearStart year))
  unfold foundWeek
  generalize sinceWeek d (weekday (yearStart year)) = days at *
  by_cases early : days < 0
  · have before := yearStart_succ (year - 1)
    have longBefore := yearLength_bounds (year - 1)
    have number := weeks_eq (show 1 ≤ year - 1 by omega)
    rw [sub_add_cancel] at before number
    rw [isoWeekNumber_neg early (by omega) bounds.2]
    change IsoWeek _ (year - 1) (weeks (year - 1))
    unfold weekday at *
    refine ⟨?_, ?_⟩
    · rw [sub_add_cancel]
      unfold thursday weekday
      omega
    · rw [number]
      unfold thursday weekday
      split <;> omega
  · have number := weeks_eq (show 1 ≤ year by omega)
    rw [isoWeekNumber_nonneg (by omega)]
    by_cases many : days / 7 + 1 > weeks year
    · have later := yearStart_succ (year + 1)
      have longer := yearLength_bounds (year + 1)
      rw [if_pos many]
      change IsoWeek _ (year + 1) 1
      rw [number] at many
      unfold weekday at *
      refine ⟨?_, ?_⟩ <;> unfold thursday weekday <;> split at many <;> omega
    · rw [if_neg many]
      change IsoWeek _ year (days / 7 + 1)
      rw [number] at many
      unfold weekday at *
      refine ⟨?_, ?_⟩ <;> unfold thursday weekday <;> split at many <;> omega

/-- Before 1970 the week of a Tuesday is found, unless the year begins with a Wednesday or a
Thursday. -/
theorem foundWeek_before {year d : ℤ} (h : year < 1970) (first : 0 ≤ d) (last : d < yearLength year)
    (tuesday : weekday (yearStart year + d) = 1) :
    IsoWeek (yearStart year + d) (foundWeek year d (weekday (2 - yearStart year))).1
        (foundWeek year d (weekday (2 - yearStart year))).2 ↔
      weekday (yearStart year) ≠ 2 ∧ weekday (yearStart year) ≠ 3 := by
  have after := yearStart_succ year
  have long := yearLength_bounds year
  have since := sinceWeek_eq d (weekday (2 - yearStart year))
  have few : 52 ≤ weeks year := by
    unfold weeks
    split <;> omega
  have number : weekday (yearStart year) ≠ 2 → weekday (yearStart year) ≠ 3 →
      weekday (yearStart (year + 1)) = 4 ∨ weeks year = 52 := by
    intro wednesday thursday
    by_cases early : year ≤ 0
    · exact .inr (weeks_before early)
    · rw [weeks_eq (by omega)]
      split <;> omega
  unfold foundWeek
  generalize sinceWeek d (weekday (2 - yearStart year)) = days at *
  unfold weekday at *
  rw [isoWeekNumber_nonneg (by omega)]
  by_cases many : days / 7 + 1 > weeks year
  · have later := yearStart_succ (year + 1)
    have longer := yearLength_bounds (year + 1)
    rw [if_pos many]
    change IsoWeek _ (year + 1) 1 ↔ _
    refine iff_of_true ⟨?_, ?_⟩ (by omega) <;> unfold thursday weekday <;> omega
  · rw [if_neg many]
    change IsoWeek _ year (days / 7 + 1) ↔ _
    obtain ⟨k, w, start, low, high⟩ : ∃ k w, yearStart year = 7 * k + w ∧ 0 ≤ w ∧ w < 7 :=
      ⟨yearStart year / 7, yearStart year % 7, by omega, by omega, by omega⟩
    refine ⟨fun week => ?_, fun other => ⟨?_, ?_⟩⟩
    · have number := week.number
      unfold thursday weekday at number
      omega
    · have number := number other.1 other.2
      unfold thursday weekday
      interval_cases w <;> omega
    · unfold thursday weekday
      interval_cases w <;> omega

/-- The number of the day of the week that is found for the first day of a year. -/
def foundFirst (year : ℤ) : ℤ := weekday (if 1970 ≤ year then yearStart year else 2 - yearStart year)

theorem Date.Valid.getWeekDate_eq (h : date.Valid) :
    date.getWeekDate .wnISO = some ⟨(foundWeek date.year date.inYear (foundFirst date.year)).1,
      (foundWeek date.year date.inYear
    (foundFirst date.year)).2, Day.ofNumber date.weekDayNumber⟩ := by
  have number : (Date.mk date.year .january (truncate8 1)).number = yearStart date.year := by
    change yearStart date.year + 0 + (1 - 1) = _
    omega
  have ref : weekRef .wnISO = 3 := rfl
  unfold Date.getWeekDate
  dsimp only
  rw [(first_valid date.year .january).getWeekDay_eq, h.getWeekDay_eq, Date.getDayOfYear_eq, ref]
  simp only [Option.bind_eq_bind, Option.bind_some, Day.getCode_ofNumber, add_sub_cancel_right]
  rw [Date.weekDayNumber, number]
  rfl

/-- The day of the week is the true one, and the week is the one that the Thursday numbers. -/
structure WeekDated (date : Date) : Prop where
  weekDay : date.getWeekDay = some (Day.ofNumber date.number)
  weekDate : ∃ year week, date.getWeekDate .wnISO = some ⟨year, week, Day.ofNumber date.number⟩ ∧
    IsoWeek date.number year week

/-- Before 1970, Tuesdays of a year that begins with neither a Wednesday nor a Thursday. -/
def Countable (date : Date) : Prop :=
  1970 ≤ date.year ∨ weekday date.number = 1 ∧ weekday (yearStart date.year) ≠ 2 ∧
    weekday (yearStart date.year) ≠ 3

theorem weekDated_iff_countable (h : date.Valid) : WeekDated date ↔ Countable date := by
  have bounds := h.inYear_bounds
  have number := date.number_eq
  have weekDay := h.getWeekDay_eq
  have weekDate := h.getWeekDate_eq
  unfold Date.weekDayNumber at weekDay weekDate
  unfold foundFirst at weekDate
  unfold Countable
  by_cases since : 1970 ≤ date.year
  · rw [if_pos since] at weekDay weekDate
    rw [if_pos since] at weekDate
    have week := foundWeek_since since bounds.1 bounds.2
    rw [← number] at week
    exact iff_of_true ⟨weekDay, _, _, weekDate, week⟩ (.inl since)
  · rw [if_neg since] at weekDay weekDate
    rw [if_neg since] at weekDate
    have week := foundWeek_before (not_le.mp since) bounds.1 bounds.2
    rw [← number] at week
    have tuesday : Day.ofNumber (2 - date.number) = Day.ofNumber date.number ↔ weekday date.number = 1 := by
      rw [Day.ofNumber_inj]
      unfold weekday
      omega
    refine ⟨fun dated => .inr ?_, fun countable => ?_⟩
    · have day := tuesday.mp (Option.some_inj.mp (weekDay.symm.trans dated.weekDay))
      obtain ⟨year, number, found, isWeek⟩ := dated.weekDate
      rw [weekDate, Option.some_inj, WeekDate.mk.injEq] at found
      rw [← found.1, ← found.2.1] at isWeek
      exact ⟨day, (week day).mp isWeek⟩
    · obtain ⟨day, other⟩ := countable.resolve_left since
      rw [tuesday.mpr day] at weekDay weekDate
      exact ⟨weekDay, _, _, weekDate, (week day).mpr other⟩

def WeekDate.Later (w w' : WeekDate) : Prop :=
  w.year < w'.year ∨ w.year = w'.year ∧
    (w.week < w'.week ∨ w.week = w'.week ∧ w.day.getCode < w'.day.getCode)

/-- The week has the next number, or is the first one of the next year. -/
def WeekDate.Next (w w' : WeekDate) : Prop :=
  w'.year = w.year ∧ w'.week = w.week + 1 ∨ w'.year = w.year + 1 ∧ w'.week = 1

/-- The dates whose weeks are found; they are ordered by them, and weeks follow one another. -/
theorem weekDated_iff {date date' : Date} (h : date.Valid) (h' : date'.Valid) :
    (WeekDated date ↔ Countable date) ∧
    (Countable date → Countable date' → ∃ w w', date.getWeekDate .wnISO = some w ∧
      date'.getWeekDate .wnISO = some w' ∧ (date.number < date'.number → w.Later w') ∧
      (date'.number = date.number + 7 → w.Next w')) := by
  refine ⟨weekDated_iff_countable h, fun countable countable' => ?_⟩
  obtain ⟨-, year, week, found, isWeek⟩ := (weekDated_iff_countable h).mpr countable
  obtain ⟨-, year', week', found', isWeek'⟩ := (weekDated_iff_countable h').mpr countable'
  refine ⟨_, _, found, found', fun less => ?_, fun next => ?_⟩
  · have later := isWeek.lt isWeek' less
    unfold WeekDate.Later
    rw [Day.getCode_ofNumber, Day.getCode_ofNumber]
    dsimp only
    omega
  · rw [next] at isWeek'
    exact isWeek.next.imp isWeek'.unique isWeek'.unique

def moonLanding : Date := ⟨1969, .july, 20⟩

def lastSunday : Date := ⟨2023, .january, 1⟩

def nextSunday : Date := ⟨2023, .january, 8⟩

theorem weekDated_iff_sunday : ∃ w w', lastSunday.getWeekDate .wnISO = some w ∧
    nextSunday.getWeekDate .wnISO = some w' ∧ (lastSunday.number < nextSunday.number → w.Later w') ∧
      (nextSunday.number = lastSunday.number + 7 → w.Next w') :=
  (weekDated_iff ⟨by decide, by decide⟩ ⟨by decide, by decide⟩).2 (.inl (by decide)) (.inl (by decide))

/-- The day was a Sunday, and it is found to be a Thursday. -/
theorem not_weekDated_moonLanding : moonLanding.Valid ∧ ¬WeekDated moonLanding := by
  have valid : moonLanding.Valid := ⟨by decide, by decide⟩
  refine ⟨valid, fun dated => ?_⟩
  have day := dated.weekDay
  rw [valid.getWeekDay_eq, Option.some_inj, Day.ofNumber_inj] at day
  exact absurd day (by decide)

end SkipPlatform.SKDate
