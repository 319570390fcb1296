import SkipPlatform.SkDate

set_option autoImplicit false

/-! What is added to a date gives the date with the number that it should have, as long as 64 bits
are enough; years are added without a look at the month. -/
namespace SkipPlatform.SKDate
open Gregorian

section Wrap

variable {n : ℤ}

theorem toInt64_eq (n : ℤ) : toInt64 n = (n + 2 ^ 63) % 2 ^ 64 - 2 ^ 63 := by
  rw [toInt64, Int.bmod_def]
  split <;> omega

theorem isInt_toInt64 (n : ℤ) : IsInt (toInt64 n) := by
  have wrapped := toInt64_eq n
  unfold IsInt
  omega

theorem IsInt.toInt64_eq (h : IsInt n) : toInt64 n = n := by
  have wrapped := SKDate.toInt64_eq n
  unfold IsInt at h
  omega

/-- The first day of the first year that a date can have. -/
def firstDay : ℤ := yearStart (-2 ^ 63)

/-- The days of all years that a date can have. After the last one comes the first again. -/
def span : ℤ := yearStart (2 ^ 63) - firstDay

theorem span_large : 2 ^ 66 < span := by decide

theorem Date.Valid.inSpan {date : Date} (h : date.Valid) (year : IsInt date.year) :
    firstDay ≤ date.number ∧ date.number < firstDay + span := by
  have bounds := h.isDay.inYear
  have first := yearStart_mono year.1
  have last := yearStart_mono (Int.add_one_le_of_lt year.2)
  unfold Date.number firstDay span firstDay
  omega

/-- The number of the day that comes so many days after the first one. -/
def folded (n : ℤ) : ℤ := firstDay + (n - firstDay) % span

theorem folded_modEq (n : ℤ) : folded n ≡ n [ZMOD span] := by
  have rest := (Int.mod_modEq (n - firstDay) span).add_left firstDay
  rw [add_sub_cancel] at rest
  exact rest

theorem folded_congr {m : ℤ} (h : m ≡ n [ZMOD span]) : folded m = folded n := by
  unfold folded
  rw [(h.sub_right firstDay).eq]

theorem Date.Valid.folded_number {date : Date} (h : date.Valid) (year : IsInt date.year) :
    folded date.number = date.number := by
  have inside := h.inSpan year
  unfold folded
  rw [Int.emod_eq_of_lt (by omega) (by omega)]
  omega

theorem Date.Valid.number_eq {date : Date} (h : date.Valid) (year : IsInt date.year)
    (same : date.number ≡ n [ZMOD span]) : date.number = folded n := by
  rw [← h.folded_number year, folded_congr same]

end Wrap

theorem nextMonth_number {year : ℤ} (inYears : IsInt year) {i : ℕ} (h : i < 12) :
    ∃ (y' : ℤ) (i' : ℕ), nextMonth year i = (y', (i' : ℤ)) ∧ IsInt y' ∧ i' < 12 ∧
      ∀ d, dayNumber y' i' (d - monthLength (isLeap year) i) ≡ dayNumber year i d [ZMOD span] := by
  unfold nextMonth
  by_cases last : i = 11
  · refine ⟨toInt64 (year + 1), 0, if_pos (by omega), isInt_toInt64 _, by omega, fun d => ?_⟩
    have twelve := monthStart_twelve year
    have succ := yearStart_succ year
    have december : monthStart (isLeap year) 12 = monthStart (isLeap year) i +
      monthLength (isLeap year) i := by rw [last]; rfl
    have january : ∀ leap, monthStart leap 0 = 0 := fun _ => rfl
    by_cases inside : year + 1 < 2 ^ 63
    · rw [IsInt.toInt64_eq ⟨by have first := inYears.1; omega, inside⟩]
      have same : dayNumber (year + 1) 0 (d - monthLength (isLeap year) i) = dayNumber year i d := by
        rw [dayNumber, january, dayNumber]
        omega
      rw [same]
    · have top : year + 1 = 2 ^ 63 := by
        have last := inYears.2
        omega
      have bottom : toInt64 (year + 1) = -2 ^ 63 := by rw [top]; rfl
      have again : dayNumber (-2 ^ 63) 0 (d - monthLength (isLeap year) i) =
        firstDay + (d - monthLength (isLeap year) i) := by rw [dayNumber, january, add_zero, firstDay]
      refine Int.modEq_iff_dvd.mpr ⟨1, ?_⟩
      rw [bottom, again, dayNumber, span, ← top]
      omega
  · refine ⟨year, i + 1, ?_, inYears, by omega, fun d => ?_⟩
    · rw [if_neg (by omega)]
      push_cast
      rfl
    · have next : monthStart (isLeap year) (i + 1) = monthStart (isLeap year) i +
        monthLength (isLeap year) i := rfl
      have same : dayNumber year (i + 1) (d - monthLength (isLeap year) i) = dayNumber year i d := by
        unfold dayNumber
        omega
      rw [same]

theorem previousMonth_number {year : ℤ} (inYears : IsInt year) {i : ℕ} (h : i < 12) :
    ∃ (y' : ℤ) (i' : ℕ), previousMonth year i = (y', (i' : ℤ)) ∧ IsInt y' ∧ i' < 12 ∧
      ∀ d, dayNumber y' i' (monthLength (isLeap y') i' + d) ≡ dayNumber year i d [ZMOD span] := by
  unfold previousMonth
  cases i with
  | zero =>
    have before : ∀ y d, dayNumber y 11 (monthLength (isLeap y) 11 + d) = yearStart (y + 1) + d := by
      intro y d
      have twelve := monthStart_twelve y
      have succ := yearStart_succ y
      have december : monthStart (isLeap y) 12 = monthStart (isLeap y) 11 +
        monthLength (isLeap y) 11 := rfl
      unfold dayNumber
      omega
    have january : ∀ d, dayNumber year 0 d = yearStart year + d := fun d => by
      rw [dayNumber, monthStart, add_zero]
    refine ⟨toInt64 (year - 1), 11, if_pos rfl, isInt_toInt64 _, by omega, fun d => ?_⟩
    rw [before, january]
    by_cases inside : -2 ^ 63 ≤ year - 1
    · rw [IsInt.toInt64_eq ⟨inside, by have last := inYears.2; omega⟩, sub_add_cancel]
    · have bottom : year = -2 ^ 63 := by
        have first := inYears.1
        omega
      have top : toInt64 (year - 1) + 1 = 2 ^ 63 := by rw [bottom]; rfl
      refine Int.modEq_iff_dvd.mpr ⟨-1, ?_⟩
      rw [top, bottom, span, firstDay]
      omega
  | succ i =>
    refine ⟨year, i, ?_, inYears, by omega, fun d => ?_⟩
    · rw [if_neg (by omega)]
      push_cast
      rw [add_sub_cancel_right]
    · have next : monthStart (isLeap year) (i + 1) = monthStart (isLeap year) i +
        monthLength (isLeap year) i := rfl
      have same : dayNumber year i (monthLength (isLeap year) i + d) = dayNumber year (i + 1) d := by
        unfold dayNumber
        omega
      rw [same]

theorem addDaysForward_number (fuel : ℕ) (nDays : ℤ) {year : ℤ} (inYears : IsInt year) {i : ℕ}
    (h : i < 12) (first : 0 ≤ nDays) (enough : nDays < fuel) :
    ∃ date, addDaysForward fuel nDays year i = some date ∧ date.Valid ∧ IsInt date.year ∧
      date.number ≡ dayNumber year i nDays [ZMOD span] := by
  induction fuel generalizing nDays year i with
  | zero => omega
  | succ fuel ih =>
    have long := (monthLength_bounds (isLeap year) i).1
    rw [addDaysForward, daysInMonth_eq year h, Option.bind_eq_bind, Option.bind_some]
    by_cases beyond : nDays ≥ monthLength (isLeap year) i
    · obtain ⟨y', i', next, inYears', h', same⟩ := nextMonth_number inYears h
      rw [if_pos beyond, next]
      obtain ⟨date, made, valid, inside, number⟩ :=
        ih (nDays - monthLength (isLeap year) i) inYears' h' (by omega) (by omega)
      exact ⟨date, made, valid, inside, number.trans (same nDays)⟩
    · have day : IsDay year i nDays := ⟨h, first, by omega⟩
      rw [if_neg beyond, Month.monthForCode_index h]
      refine ⟨⟨year, Month.ofIndex i, nDays + 1⟩, ?_, Date.valid_of_isDay day, inYears, ?_⟩
      · change some (Date.mk year _ _) = _
        rw [truncate8_day day]
      · rw [Date.number_ofIndex h]

/-- A sum that does not fit is below every number of days, and its last eight bits are the day. -/
theorem addDaysForward_wrapped {nDays d year : ℤ} {i : ℕ} (day : IsDay year i d)
    (wrapped : nDays = d - 2 ^ 63) :
    addDaysForward (nDays.toNat + 1) nDays year i = some ⟨year, Month.ofIndex i, d + 1⟩ := by
  have first := day.first
  have last := day.last
  have long := (monthLength_bounds (isLeap year) i).2
  have short := (monthLength_bounds (isLeap year) i).1
  rw [addDaysForward, daysInMonth_eq year day.month, Option.bind_eq_bind, Option.bind_some,
    if_neg (by omega), Month.monthForCode_index day.month]
  change some (Date.mk year _ _) = _
  have bits : truncate8 (nDays + 1) = d + 1 := by
    unfold truncate8
    omega
  rw [bits]

theorem addDaysBackward_number (fuel : ℕ) (days nDays : ℤ) {year : ℤ} (inYears : IsInt year) {i : ℕ}
    (h : i < 12) (first : 0 ≤ days) (last : days ≤ monthLength (isLeap year) i) (back : nDays < 0)
    (enough : (if days = 0 then 1 else 0) - nDays < fuel) :
    ∃ date, addDaysBackward fuel days nDays year i = some date ∧ date.Valid ∧ IsInt date.year ∧
      date.number ≡ dayNumber year i (days + nDays) [ZMOD span] := by
  induction fuel generalizing days nDays year i with
  | zero => split at enough <;> omega
  | succ fuel ih =>
    rw [addDaysBackward]
    by_cases beyond : nDays < -days
    · obtain ⟨y', i', previous, inYears', h', same⟩ := previousMonth_number inYears h
      have long := (monthLength_bounds (isLeap y') i').1
      rw [if_pos beyond, previous]
      dsimp only
      rw [daysInMonth_eq y' h']
      obtain ⟨date, made, valid, inside, number⟩ := ih (monthLength (isLeap y') i') (nDays + days)
        inYears' h' (by omega) le_rfl (by omega) (by split at enough <;> split <;> omega)
      refine ⟨date, made, valid, inside, number.trans ?_⟩
      rw [add_comm days]
      exact same (nDays + days)
    · have day : IsDay year i (days + nDays) := ⟨h, by omega, by omega⟩
      rw [if_neg beyond, Month.monthForCode_index h]
      refine ⟨⟨year, Month.ofIndex i, days + nDays + 1⟩, ?_, Date.valid_of_isDay day, inYears, ?_⟩
      · change some (Date.mk year _ _) = _
        rw [add_assoc, add_comm 1, truncate8_day day]
      · rw [Date.number_ofIndex h]

variable {date : Date}

/-- How many days `addDays` goes: the sum with the day of the month may not fit. -/
def shift (day days : ℤ) : ℤ := if day - 1 + days < 2 ^ 63 then days else days - 2 ^ 63

theorem Date.Valid.addDays_number (h : date.Valid) (year : IsInt date.year) {days : ℤ}
    (inDays : IsInt days) : ∃ date', date.addDays days = some date' ∧ date'.Valid ∧
      IsInt date'.year ∧ date'.number = folded (date.number + shift date.day days) := by
  have first := h.first
  have last := h.last
  have long := (monthLength_bounds (isLeap date.year) date.month.index).2
  have month := date.month.index_lt
  have inDays := inDays
  have code : date.month.getCode - 1 = (date.month.index : ℤ) := by
    rw [Month.getCode_index, add_sub_cancel_right]
  have number : ∀ days, dayNumber date.year date.month.index (date.day - 1 + days) =
      date.number + days := fun days => by
    unfold Date.number dayNumber
    omega
  unfold IsInt at inDays
  unfold Date.addDays
  dsimp only
  rw [code]
  rcases lt_trichotomy days 0 with back | none | forward
  · rw [if_neg (by omega), if_neg (by omega), shift, if_pos (by omega)]
    obtain ⟨date', made, valid, inside, same⟩ := addDaysBackward_number (days.natAbs + 2)
      (date.day - 1) days year month (by omega) (by omega) back (by split <;> omega)
    rw [number] at same
    exact ⟨date', made, valid, inside, valid.number_eq inside same⟩
  · rw [if_pos none, none, shift, if_pos (by omega), add_zero]
    exact ⟨date, rfl, h, year, (h.folded_number year).symm⟩
  · rw [if_neg (by omega), if_pos forward, shift]
    by_cases fits : date.day - 1 + days < 2 ^ 63
    · have sum : IsInt (date.day - 1 + days) := ⟨by omega, fits⟩
      rw [if_pos fits, sum.toInt64_eq]
      obtain ⟨date', made, valid, inside, same⟩ := addDaysForward_number
        ((date.day - 1 + days).toNat + 1) (date.day - 1 + days) year month (by omega) (by omega)
      rw [number] at same
      exact ⟨date', made, valid, inside, valid.number_eq inside same⟩
    · have wrapped := toInt64_eq (date.day - 1 + days)
      have day : IsDay date.year date.month.index (date.day - 1 + (days - 2 ^ 63)) :=
        ⟨month, by omega, by omega⟩
      have valid := Date.valid_of_isDay day
      have same : (Date.mk date.year (Month.ofIndex date.month.index)
          (date.day - 1 + (days - 2 ^ 63) + 1)).number =
            dayNumber date.year date.month.index (date.day - 1 + (days - 2 ^ 63)) :=
        Date.number_ofIndex month
      rw [if_neg fits]
      refine ⟨_, addDaysForward_wrapped day (by omega), valid, year, ?_⟩
      rw [← number (days - 2 ^ 63), ← same]
      exact (valid.folded_number year).symm

theorem Date.compare_lt {date date' : Date} (h : date.Valid) (h' : date'.Valid)
    (less : date.number < date'.number) : date.compare date' = .lt := by
  have backward := dayNumber_lt h'.isDay h.isDay
  unfold Date.number at less
  unfold Date.compare
  by_cases year : date.year = date'.year
  · rw [if_pos year]
    by_cases month : date.month = date'.month
    · rw [if_pos month, compare_lt_iff_lt]
      rw [year, month] at less
      unfold dayNumber at less
      omega
    · have other : date.month.index ≠ date'.month.index := fun same => month (Month.index_inj same)
      rw [if_neg month, compare_lt_iff_lt, Month.getCode_index, Month.getCode_index]
      omega
  · rw [if_neg year, compare_lt_iff_lt]
    omega

theorem Date.compare_eq_lt {date date' : Date} (h : date.Valid) (h' : date'.Valid) :
    date.compare date' = .lt ↔ date.number < date'.number := by
  refine ⟨fun before => ?_, Date.compare_lt h h'⟩
  by_contra less
  rcases eq_or_lt_of_le (not_lt.mp less) with same | more
  · rw [Date.eq_of_number h h' same.symm] at before
    unfold Date.compare at before
    rw [if_pos rfl, if_pos rfl, compare_lt_iff_lt] at before
    exact lt_irrefl _ before
  · have back := Date.compare_lt h' h more
    unfold Date.compare at before back
    by_cases year : date.year = date'.year
    · rw [if_pos year] at before
      rw [if_pos year.symm] at back
      by_cases month : date.month = date'.month
      · rw [if_pos month, compare_lt_iff_lt] at before
        rw [if_pos month.symm, compare_lt_iff_lt] at back
        exact lt_asymm before back
      · rw [if_neg month, compare_lt_iff_lt] at before
        rw [if_neg (Ne.symm month), compare_lt_iff_lt] at back
        exact lt_asymm before back
    · rw [if_neg year, compare_lt_iff_lt] at before
      rw [if_neg (Ne.symm year), compare_lt_iff_lt] at back
      exact lt_asymm before back

theorem Month.monthForCode_some {t : ℤ} (h : 0 ≤ t) (h' : t ≤ 23) :
    ∃ m, Month.monthForCode (t + 1) = some m := by
  interval_cases t <;> exact ⟨_, rfl⟩

theorem addDays_first (h : date.Valid) {year : ℤ} (inYears : IsInt year) {t : ℤ} (first : 0 ≤ t)
    (last : t ≤ 23) : ∃ date', (Month.monthForCode (t + 1)).bind (fun m =>
      (Date.mk year m (truncate8 1)).addDays (date.day - 1)) = some date' ∧ date'.Valid ∧
        IsInt date'.year := by
  have day := h.first
  have day' := h.last
  have long := (monthLength_bounds (isLeap date.year) date.month.index).2
  obtain ⟨m, month⟩ := Month.monthForCode_some first last
  have fits : IsInt (date.day - 1) := ⟨by omega, by omega⟩
  obtain ⟨date', made, valid, inside, -⟩ := (first_valid year m).addDays_number inYears fits
  exact ⟨date', by rw [month, Option.bind_some, made], valid, inside⟩

/-- A sum of months that does not fit is no month, but for one. -/
def Date.MonthsFit (date : Date) (months : ℤ) : Prop :=
  date.month.index + months < 2 ^ 63 ∨ date.month.index + months = 2 ^ 63 + 8

theorem Date.Valid.addMonths_valid (h : date.Valid) (year : IsInt date.year) {months : ℤ}
    (inMonths : IsInt months) (fit : date.MonthsFit months) :
    ∃ date', date.addMonths months = some date' ∧ date'.Valid ∧ IsInt date'.year := by
  have month := date.month.index_lt
  have wrapped := toInt64_eq (date.month.index + months)
  unfold IsInt at inMonths
  unfold Date.addMonths
  dsimp only
  rw [Month.getCode_index, add_sub_cancel_right]
  by_cases none : months = 0
  · rw [if_pos none]
    exact ⟨date, rfl, h, year⟩
  · rw [if_neg none]
    by_cases forward : months ≥ 0
    · rw [if_pos forward]
      rcases fit with fits | special
      · have same : toInt64 (date.month.index + months) = date.month.index + months :=
          IsInt.toInt64_eq ⟨by omega, fits⟩
        have before := Int.tmod_nonneg 12 (show 0 ≤ (date.month.index : ℤ) + months by omega)
        have after := Int.tmod_lt_of_pos ((date.month.index : ℤ) + months)
          (show (0 : ℤ) < 12 by omega)
        rw [same]
        exact addDays_first h (isInt_toInt64 _) before (by omega)
      · rw [special]
        exact addDays_first h (isInt_toInt64 _) (by decide) (by decide)
    · rw [if_neg forward]
      have same : toInt64 (date.month.index + months) = date.month.index + months :=
        IsInt.toInt64_eq ⟨by omega, by omega⟩
      rw [same]
      by_cases sameYear : (date.month.index : ℤ) + months ≥ 0
      · rw [if_pos sameYear]
        exact addDays_first h year sameYear (by omega)
      · have less := Int.tmod_lt_of_pos (toInt64 |(date.month.index : ℤ) + months|)
          (show (0 : ℤ) < 12 by omega)
        have more := Int.lt_tmod_of_pos (toInt64 |(date.month.index : ℤ) + months|)
          (show (0 : ℤ) < 12 by omega)
        rw [if_neg sameYear]
        exact addDays_first h (isInt_toInt64 _) (by omega) (by omega)

theorem Date.addMonths_wrapped {months : ℤ} (inMonths : IsInt months) (fit : ¬date.MonthsFit months) :
    date.addMonths months = none := by
  have month := date.month.index_lt
  have wrapped := toInt64_eq (date.month.index + months)
  unfold IsInt at inMonths
  unfold MonthsFit at fit
  obtain ⟨t, sum⟩ : ∃ t : ℤ, date.month.index + months = 2 ^ 63 + t := ⟨_, (add_sub_cancel _ _).symm⟩
  have same : toInt64 (date.month.index + months) = -2 ^ 63 + t := by omega
  have noMonth : Month.monthForCode ((-2 ^ 63 + t).tmod 12 + 1) = none := by
    have first : 0 ≤ t := by omega
    have last : t ≤ 10 := by omega
    have other : t ≠ 8 := by omega
    interval_cases t <;> first | rfl | exact absurd rfl other
  unfold Date.addMonths
  dsimp only
  rw [Month.getCode_index, add_sub_cancel_right, if_neg (by omega), if_pos (by omega), same, noMonth]
  rfl

theorem Date.create_valid {year : ℤ} (inYears : IsInt year) (month day : ℤ) :
    ∃ date, Date.create year month day = some date ∧ date.Valid := by
  have inMonths := isInt_toInt64 (month - 1)
  obtain ⟨date, made, valid, inside⟩ := (first_valid year .january).addMonths_valid inYears inMonths
    (.inl (by rw [Month.index, Nat.cast_zero, zero_add]; exact inMonths.2))
  obtain ⟨date', made', valid', -⟩ := valid.addDays_number inside (isInt_toInt64 (day - 1))
  refine ⟨date', ?_, valid'⟩
  change ((Date.mk year .january (truncate8 1)).addMonths (toInt64 (month - 1))).bind _ = _
  rw [made, Option.bind_some, made']

theorem monthLength_common {m : Month} (h : m ≠ .february) (leap leap' : Bool) :
    monthLength leap m.index = monthLength leap' m.index := by
  cases m <;> first | rfl | exact absurd rfl h

theorem Date.Valid.addYears_valid_iff (h : date.Valid) (years : ℤ) :
    (date.addYears years).Valid ↔
      (date.month = .february ∧ date.day = 29 → leapYear (toInt64 (date.year + years)) = true) := by
  obtain ⟨year, month, day⟩ := date
  obtain ⟨first, last⟩ := h
  rw [leapYear_eq]
  have valid : (Date.addYears ⟨year, month, day⟩ years).Valid ↔
      day ≤ monthLength (isLeap (toInt64 (year + years))) month.index :=
    ⟨fun valid => valid.last, fun last => ⟨first, last⟩⟩
  rw [valid]
  by_cases feb : month = .february
  · have length : ∀ leap, monthLength leap month.index = if leap then 29 else 28 := fun leap => by
      rw [feb]
      rfl
    rw [length] at last ⊢
    cases isLeap (toInt64 (year + years)) <;> grind
  · rw [monthLength_common feb (isLeap (toInt64 (year + years))) (isLeap year)]
    exact iff_of_true last fun isLast => absurd isLast.1 feb

structure Acts (date : Date) (a b months years y m d : ℤ) : Prop where
  addDays : ∃ date', date.addDays a = some date' ∧ date'.Valid
  addDays_addDays : (date.addDays a).bind (·.addDays b) = date.addDays (toInt64 (a + b))
  compare : a < b → ∃ date₁ date₂, date.addDays a = some date₁ ∧ date.addDays b = some date₂ ∧
    date₁.compare date₂ = .lt
  addMonths : ∃ date', date.addMonths months = some date' ∧ date'.Valid
  addYears : (date.addYears years).Valid
  create : ∃ date', Date.create y m d = some date' ∧ date'.Valid

/-- The year found has the day, and no sum that is too large for 64 bits shows. -/
structure Fits (date : Date) (a b months years : ℤ) : Prop where
  days : ∀ date' : Date, date'.Valid → date'.number = folded (date.number + shift date.day a) →
    shift date.day a + shift date'.day b = shift date.day (toInt64 (a + b))
  order : a < b → folded (date.number + shift date.day a) < folded (date.number + shift date.day b)
  months : date.MonthsFit months
  years : date.month = .february ∧ date.day = 29 → leapYear (toInt64 (date.year + years)) = true

theorem shift_bounds {day days : ℤ} (h : 1 ≤ day ∧ day ≤ 31) (inDays : IsInt days) :
    -2 ^ 63 ≤ shift day days ∧ shift day days < 2 ^ 63 := by
  unfold IsInt at inDays
  unfold shift
  split <;> omega

theorem Date.Valid.day_bounds (h : date.Valid) : 1 ≤ date.day ∧ date.day ≤ 31 :=
  ⟨h.first, h.last.trans (monthLength_bounds (isLeap date.year) date.month.index).2⟩

/-- So few days apart only the same days are a whole number of calendars apart. -/
theorem folded_add_inj (n : ℤ) {k k' : ℤ} (near : |k - k'| < span)
    (same : folded (n + k) = folded (n + k')) : k = k' := by
  have apart := (folded_modEq (n + k)).symm.trans ((congrArg (· % span) same).trans
    (folded_modEq (n + k')))
  have multiple := (Int.ModEq.add_left_cancel' n apart).symm.dvd
  exact sub_eq_zero.mp (Int.eq_zero_of_abs_lt_dvd multiple near)

theorem addDays_addDays_iff (h : date.Valid) (year : IsInt date.year) {a b : ℤ} (inA : IsInt a)
    (inB : IsInt b) : (date.addDays a).bind (·.addDays b) = date.addDays (toInt64 (a + b)) ↔
      ∀ date' : Date, date'.Valid → date'.number = folded (date.number + shift date.day a) →
        shift date.day a + shift date'.day b = shift date.day (toInt64 (a + b)) := by
  obtain ⟨date₁, made₁, valid₁, year₁, number₁⟩ := h.addDays_number year inA
  obtain ⟨date₂, made₂, valid₂, year₂, number₂⟩ := valid₁.addDays_number year₁ inB
  obtain ⟨date₃, made₃, valid₃, year₃, number₃⟩ := h.addDays_number year (isInt_toInt64 (a + b))
  have sum : date₂.number = folded (date.number + (shift date.day a + shift date₁.day b)) := by
    rw [number₂, number₁, ← add_assoc]
    exact folded_congr ((folded_modEq _).add_right _)
  have large := span_large
  have first := shift_bounds h.day_bounds inA
  have second := shift_bounds valid₁.day_bounds inB
  have both := shift_bounds h.day_bounds (isInt_toInt64 (a + b))
  rw [made₁, made₃, Option.bind_some, made₂, Option.some_inj]
  constructor
  · intro same date' valid' number'
    rw [Date.eq_of_number valid' valid₁ (number'.trans number₁.symm)]
    refine folded_add_inj date.number (abs_lt.mpr ⟨by omega, by omega⟩) ?_
    rw [← sum, ← number₃, same]
  · intro shifts
    refine Date.eq_of_number valid₂ valid₃ ?_
    rw [sum, number₃, shifts date₁ valid₁ number₁]

theorem addDays_compare_iff (h : date.Valid) (year : IsInt date.year) {a b : ℤ} (inA : IsInt a)
    (inB : IsInt b) : (∃ date₁ date₂, date.addDays a = some date₁ ∧ date.addDays b = some date₂ ∧
      date₁.compare date₂ = .lt) ↔
        folded (date.number + shift date.day a) < folded (date.number + shift date.day b) := by
  obtain ⟨date₁, made₁, valid₁, -, number₁⟩ := h.addDays_number year inA
  obtain ⟨date₂, made₂, valid₂, -, number₂⟩ := h.addDays_number year inB
  rw [← number₁, ← number₂, ← Date.compare_eq_lt valid₁ valid₂]
  constructor
  · intro less
    obtain ⟨date₁', date₂', made₁', made₂', before⟩ := less
    rw [made₁] at made₁'
    rw [made₂] at made₂'
    rwa [Option.some_inj.mp made₁', Option.some_inj.mp made₂']
  · intro before
    exact ⟨date₁, date₂, made₁, made₂, before⟩

/-- Days and months are added as they should be as long as 64 bits are enough; years, unless the day
is not in the year found. -/
theorem acts_iff (h : date.Valid) {a b months years y m d : ℤ} (year : IsInt date.year)
    (inA : IsInt a) (inB : IsInt b) (inMonths : IsInt months) (inYears : IsInt y) :
    Acts date a b months years y m d ↔ Fits date a b months years := by
  constructor
  · intro acts
    refine ⟨(addDays_addDays_iff h year inA inB).mp acts.addDays_addDays, fun less =>
      (addDays_compare_iff h year inA inB).mp (acts.compare less), ?_,
      (h.addYears_valid_iff years).mp acts.addYears⟩
    by_contra fit
    obtain ⟨date', made, -⟩ := acts.addMonths
    rw [Date.addMonths_wrapped inMonths fit] at made
    cases made
  · intro fits
    obtain ⟨date₁, made₁, valid₁, -⟩ := h.addDays_number year inA
    obtain ⟨date₂, made₂, valid₂, -⟩ := h.addMonths_valid year inMonths fits.months
    exact ⟨⟨date₁, made₁, valid₁⟩, (addDays_addDays_iff h year inA inB).mpr fits.days, fun less =>
      (addDays_compare_iff h year inA inB).mpr (fits.order less), ⟨date₂, made₂, valid₂⟩,
      (h.addYears_valid_iff years).mpr fits.years, Date.create_valid inYears m d⟩

def leapDay : Date := ⟨2024, .february, 29⟩

theorem leapDay_valid : leapDay.Valid := ⟨by decide, by decide⟩

theorem acts_iff_leapDay : Acts leapDay (-1) 366 (-25) 4 2023 14 30 := by
  refine (acts_iff leapDay_valid (by decide) (by decide) (by decide) (by decide) (by decide)).mpr
    ⟨fun date' valid' _ => ?_, fun _ => by decide, .inl (by decide), fun _ => by decide⟩
  have last := valid'.day_bounds.2
  rw [shift, shift, shift, if_pos (by decide), if_pos (by omega), if_pos (by decide)]
  rfl

/-- A year after the twenty-ninth of February there is no such day. -/
theorem not_acts_leapDay : leapDay.Valid ∧ ¬Acts leapDay 0 0 0 1 0 0 0 :=
  ⟨leapDay_valid, fun acts => absurd acts.addYears.last (by decide)⟩

end SkipPlatform.SKDate
