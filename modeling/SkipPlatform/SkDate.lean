import SkipPlatform.Gregorian

set_option autoImplicit false

/-! Dates of the date library, what is added to them, and their days of the week. `/` and `%` round
towards zero, loops take fuel, and `none` is an internal error. -/
namespace SkipPlatform.SKDate
open Gregorian

def IsInt (n : ℤ) : Prop := -2 ^ 63 ≤ n ∧ n < 2 ^ 63

instance (n : ℤ) : Decidable (IsInt n) := inferInstanceAs (Decidable (_ ∧ _))

/-- What is left of a result that does not fit into 64 bits. -/
def toInt64 (n : ℤ) : ℤ := n.bmod (2 ^ 64)

inductive Month
  | january | february | march | april | may | june
  | july | august | september | october | november | december
deriving DecidableEq

def Month.getCode : Month → ℤ
  | january => 1
  | february => 2
  | march => 3
  | april => 4
  | may => 5
  | june => 6
  | july => 7
  | august => 8
  | september => 9
  | october => 10
  | november => 11
  | december => 12

def Month.monthForCode (code : ℤ) : Option Month :=
  match (code - 1).tmod 12 + 1 with
  | 1 => some january
  | 2 => some february
  | 3 => some march
  | 4 => some april
  | 5 => some may
  | 6 => some june
  | 7 => some july
  | 8 => some august
  | 9 => some september
  | 10 => some october
  | 11 => some november
  | 12 => some december
  | _ => none

inductive Day
  | monday | tuesday | wednesday | thursday | friday | saturday | sunday
deriving DecidableEq

def Day.getCode : Day → ℤ
  | monday => 1
  | tuesday => 2
  | wednesday => 3
  | thursday => 4
  | friday => 5
  | saturday => 6
  | sunday => 7

def Day.dayForCode (code : ℤ) : Option Day :=
  match (code - 1).tmod 7 + 1 with
  | 1 => some monday
  | 2 => some tuesday
  | 3 => some wednesday
  | 4 => some thursday
  | 5 => some friday
  | 6 => some saturday
  | 7 => some sunday
  | _ => none

def daysInNonLeapYearMonth : List ℤ := [31, 28, 31, 30, 31, 30, 31, 31, 30, 31, 30, 31]

/-- `UInt8::truncate` -/
def truncate8 (n : ℤ) : ℤ := n % 256

structure Date where
  year : ℤ
  month : Month
  day : ℤ
deriving DecidableEq

def leapYear (year : ℤ) : Bool :=
  decide (year.tmod 4 = 0 ∧ (year.tmod 100 ≠ 0 ∨ year.tmod 400 = 0))

def daysInMonth (month year : ℤ) : Option ℤ := do
  let days ← if 0 ≤ month then daysInNonLeapYearMonth[month.toNat]? else none
  some (if month = 1 ∧ leapYear year = true then days + 1 else days)

def nextMonth (year month : ℤ) : ℤ × ℤ :=
  if month = 11 then (toInt64 (year + 1), 0) else (year, month + 1)

def previousMonth (year month : ℤ) : ℤ × ℤ :=
  if month = 0 then (toInt64 (year - 1), 11) else (year, month - 1)

def addDaysForward : ℕ → ℤ → ℤ → ℤ → Option Date
  | 0, _, _, _ => none
  | fuel + 1, nDays, year, month => do
      let daysInMonth ← daysInMonth month year
      if nDays ≥ daysInMonth then
        let next := nextMonth year month
        addDaysForward fuel (nDays - daysInMonth) next.1 next.2
      else do
        let m ← Month.monthForCode (month + 1)
        some ⟨year, m, truncate8 (nDays + 1)⟩

def addDaysBackward : ℕ → ℤ → ℤ → ℤ → ℤ → Option Date
  | 0, _, _, _, _ => none
  | fuel + 1, days, nDays, year, month =>
    if nDays < -days then do
      let previous := previousMonth year month
      let daysInMonth ← daysInMonth previous.2 previous.1
      addDaysBackward fuel daysInMonth (nDays + days) previous.1 previous.2
    else do
      let m ← Month.monthForCode (month + 1)
      some ⟨year, m, truncate8 (1 + days + nDays)⟩

def Date.addDays (date : Date) (days : ℤ) : Option Date :=
  let tday := date.day - 1
  let month := date.month.getCode - 1
  if days = 0 then some date
  else if days > 0 then
    let nDays := toInt64 (tday + days)
    addDaysForward (nDays.toNat + 1) nDays date.year month
  else addDaysBackward (days.natAbs + 2) tday days date.year month

def Date.addMonths (date : Date) (months : ℤ) : Option Date :=
  let tmonth := toInt64 (date.month.getCode - 1 + months)
  if months = 0 then some date
  else if months ≥ 0 then do
    let m ← Month.monthForCode (tmonth.tmod 12 + 1)
    (Date.mk (toInt64 (date.year + tmonth.tdiv 12)) m (truncate8 1)).addDays (date.day - 1)
  else if tmonth ≥ 0 then do
    let m ← Month.monthForCode (tmonth + 1)
    (Date.mk date.year m (truncate8 1)).addDays (date.day - 1)
  else do
    let amonth := (toInt64 |tmonth|).tmod 12
    let m ← Month.monthForCode (12 - amonth + 1)
    (Date.mk (toInt64 (date.year - |tmonth + 1|.tdiv 12 - 1)) m (truncate8 1)).addDays (date.day - 1)

def Date.addYears (date : Date) (years : ℤ) : Date :=
  ⟨toInt64 (date.year + years), date.month, date.day⟩

def Date.create (year month day : ℤ) : Option Date := do
  let date := Date.mk year .january (truncate8 1)
  let date ← date.addMonths (toInt64 (month - 1))
  date.addDays (toInt64 (day - 1))

def Date.compare (date other : Date) : Ordering :=
  if date.year = other.year then
    if date.month = other.month then Ord.compare date.day other.day
    else Ord.compare date.month.getCode other.month.getCode
  else Ord.compare date.year other.year

def daysOfMonths (year : ℤ) : ℕ → Option ℤ
  | 0 => some 0
  | month + 1 => do
      let days ← daysOfMonths year month
      let more ← daysInMonth month year
      some (days + more)

def Date.getDayOfYear (date : Date) : Option ℤ := do
  let days ← daysOfMonths date.year (date.month.getCode - 1).toNat
  some (days + date.day)

def daysOfYears (minYear : ℤ) : ℕ → ℤ
  | 0 => 0
  | years + 1 =>
    daysOfYears minYear years + if leapYear (minYear + years) then 366 else 365

def daysBetween (minYear maxYear : ℤ) : ℤ := daysOfYears minYear (maxYear - minYear).toNat

def Date.daysSince (date : Date) (refYear : ℤ) : Option ℤ :=
  if refYear ≤ date.year then do
    let days ← date.getDayOfYear
    some (daysBetween refYear date.year + days - 1)
  else none

def Date.daysUntil (date : Date) (refYear : ℤ) : Option ℤ := do
  let days ← date.getDayOfYear
  some (daysBetween (date.year + 1) refYear +
    if leapYear date.year then 366 - days else 365 - days)

def Date.getWeekDay (date : Date) : Option Day := do
  let days ← if date.year ≥ 1970 then (date.daysSince 1970).map (· + 3) else date.daysUntil 1970
  Day.dayForCode (days.tmod 7 + 1)

inductive WeekNumber
  | wnMonday | wnSunday | wnISO
deriving DecidableEq

structure WeekDate where
  year : ℤ
  week : ℤ
  day : Day
deriving DecidableEq

def p (year : ℤ) : ℤ :=
  (year + year.tdiv 4 - year.tdiv 100 + year.tdiv 400).tmod 7

def weeks (year : ℤ) : ℤ := 52 + if p year = 4 ∨ p (year - 1) = 3 then 1 else 0

/-- The day of the week that a week of the year must have; Monday is zero. -/
def weekRef : WeekNumber → ℤ
  | .wnMonday => Day.monday.getCode.tmod 7 - 1
  | .wnSunday => Day.sunday.getCode.tmod 7 - 1
  | .wnISO => Day.thursday.getCode.tmod 7 - 1

/-- The week and its year, from the days since the first week began. -/
def isoWeekNumber (thisYear days weekDay ref : ℤ) : ℤ × ℤ :=
  let year := if days < 0 then thisYear - 1 else thisYear
  let days :=
    if days < 0 then
      if leapYear (thisYear - 1) then 366 else 365 + (weekDay - ref)
    else days
  let number := days / 7 + 1
  let nbOfWeeks := weeks year
  if number > nbOfWeeks then
    if thisYear = year then (year + 1, 1) else (year, nbOfWeeks)
  else (year, number)

def Date.getWeekDate (date : Date) (kind : WeekNumber) : Option WeekDate := do
  let ref := weekRef kind
  let firstDay := Date.mk date.year .january (truncate8 1)
  let firstWeekDay ← firstDay.getWeekDay
  let weekDay := firstWeekDay.getCode - 1
  let dayOfYear ← date.getDayOfYear
  let days := if weekDay ≤ ref then dayOfYear - 1 + weekDay else dayOfYear - 1 - (7 - weekDay)
  let (year, weekNumber) := match kind with
    | .wnISO => isoWeekNumber date.year days weekDay ref
    | _ => (date.year, if days < 0 then 0 else days / 7 + 1)
  let day ← date.getWeekDay
  some ⟨year, weekNumber, day⟩

def Month.index : Month → ℕ
  | january => 0
  | february => 1
  | march => 2
  | april => 3
  | may => 4
  | june => 5
  | july => 6
  | august => 7
  | september => 8
  | october => 9
  | november => 10
  | december => 11

structure Date.Valid (date : Date) : Prop where
  first : 1 ≤ date.day
  last : date.day ≤ monthLength (isLeap date.year) date.month.index

def Date.number (date : Date) : ℤ := dayNumber date.year date.month.index (date.day - 1)

@[simp] theorem Month.getCode_index (m : Month) : m.getCode = m.index + 1 := by
  cases m <;> rfl

theorem Month.index_lt (m : Month) : m.index < 12 := by
  cases m <;> decide

theorem Month.index_inj {m m' : Month} (h : m.index = m'.index) : m = m' := by
  cases m <;> cases m' <;> first | rfl | exact absurd h (by decide)

def Month.ofIndex : ℕ → Month
  | 0 => january
  | 1 => february
  | 2 => march
  | 3 => april
  | 4 => may
  | 5 => june
  | 6 => july
  | 7 => august
  | 8 => september
  | 9 => october
  | 10 => november
  | _ => december

variable {i : ℕ}

theorem Month.index_ofIndex (h : i < 12) : (Month.ofIndex i).index = i := by
  interval_cases i <;> rfl

theorem Month.monthForCode_index (h : i < 12) :
    Month.monthForCode ((i : ℤ) + 1) = some (Month.ofIndex i) := by
  interval_cases i <;> rfl

theorem tmod_eq_zero (n k : ℤ) : n.tmod k = 0 ↔ n % k = 0 :=
  Int.dvd_iff_tmod_eq_zero.symm.trans Int.dvd_iff_emod_eq_zero

theorem leapYear_eq (year : ℤ) : leapYear year = isLeap year := by
  unfold leapYear isLeap
  rw [decide_eq_decide, tmod_eq_zero, tmod_eq_zero, ne_eq, tmod_eq_zero]

theorem daysInMonth_eq (year : ℤ) (h : i < 12) :
    daysInMonth i year = some (monthLength (isLeap year) i) := by
  unfold daysInMonth
  rw [leapYear_eq]
  interval_cases i <;> cases isLeap year <;> rfl

theorem Date.Valid.isDay {date : Date} (h : date.Valid) :
    IsDay date.year date.month.index (date.day - 1) := by
  have first := h.first
  have last := h.last
  exact ⟨date.month.index_lt, by omega, by omega⟩

theorem Date.valid_of_isDay {year d : ℤ} (h : IsDay year i d) :
    (Date.mk year (Month.ofIndex i) (d + 1)).Valid := by
  have first := h.first
  have last := h.last
  refine ⟨by dsimp only; omega, ?_⟩
  rw [Month.index_ofIndex h.month]
  dsimp only
  omega

theorem Date.number_ofIndex {year d : ℤ} (h : i < 12) :
    (Date.mk year (Month.ofIndex i) (d + 1)).number = dayNumber year i d := by
  rw [Date.number, Month.index_ofIndex h]
  dsimp only
  rw [add_sub_cancel_right]

theorem Date.eq_of_number {date date' : Date} (h : date.Valid) (h' : date'.Valid)
    (same : date.number = date'.number) : date = date' := by
  obtain ⟨year, month, day⟩ := dayNumber_inj h.isDay h'.isDay same
  obtain ⟨y, m, d⟩ := date
  obtain ⟨y', m', d'⟩ := date'
  dsimp only at year month day
  rw [year, Month.index_inj month, sub_left_inj.mp day]

theorem first_valid (year : ℤ) (m : Month) : (Date.mk year m (truncate8 1)).Valid := by
  have long := (monthLength_bounds (isLeap year) m.index).1
  exact ⟨le_rfl, (show (1 : ℤ) ≤ 28 by omega).trans long⟩

theorem truncate8_day {year d : ℤ} (h : IsDay year i d) : truncate8 (d + 1) = d + 1 := by
  have first := h.first
  have last := h.last
  have long := (monthLength_bounds (isLeap year) i).2
  unfold truncate8
  omega

end SkipPlatform.SKDate
