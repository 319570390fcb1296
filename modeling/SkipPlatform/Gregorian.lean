import Mathlib.Tactic

set_option autoImplicit false

/-! The Gregorian calendar, extended to all years before and after. Days are numbered from the first
of January of the year 1, which is a Monday; months and days of a month are numbered from zero. -/
namespace SkipPlatform.Gregorian

def isLeap (y : ℤ) : Bool := decide (y % 4 = 0 ∧ (y % 100 ≠ 0 ∨ y % 400 = 0))

def yearLength (y : ℤ) : ℤ := if isLeap y then 366 else 365

def yearStart (y : ℤ) : ℤ := 365 * (y - 1) + (y - 1) / 4 - (y - 1) / 100 + (y - 1) / 400

def monthLength (leap : Bool) : ℕ → ℤ
  | 1 => if leap then 29 else 28
  | 3 | 5 | 8 | 10 => 30
  | _ => 31

def monthStart (leap : Bool) : ℕ → ℤ
  | 0 => 0
  | m + 1 => monthStart leap m + monthLength leap m

def dayNumber (y : ℤ) (m : ℕ) (d : ℤ) : ℤ := yearStart y + monthStart (isLeap y) m + d

theorem yearStart_succ (y : ℤ) : yearStart (y + 1) = yearStart y + yearLength y := by
  unfold yearStart yearLength isLeap
  split
  · rename_i leap
    have leap := of_decide_eq_true leap
    omega
  · rename_i common
    have common : ¬ (y % 4 = 0 ∧ (y % 100 ≠ 0 ∨ y % 400 = 0)) := fun leap =>
      common (decide_eq_true leap)
    omega

theorem yearLength_bounds (y : ℤ) : 365 ≤ yearLength y ∧ yearLength y ≤ 366 := by
  unfold yearLength
  split <;> omega

theorem monthLength_bounds (leap : Bool) (m : ℕ) :
    28 ≤ monthLength leap m ∧ monthLength leap m ≤ 31 := by
  unfold monthLength
  split
  · split <;> omega
  all_goals omega

theorem monthStart_twelve (y : ℤ) : monthStart (isLeap y) 12 = yearLength y := by
  unfold yearLength
  cases isLeap y <;> rfl

theorem monthStart_mono (leap : Bool) {m n : ℕ} (h : m ≤ n) : monthStart leap m ≤ monthStart leap n := by
  induction n, h using Nat.le_induction with
  | base => exact le_rfl
  | succ n _ ih =>
    have long := (monthLength_bounds leap n).1
    rw [monthStart]
    omega

theorem monthStart_lt (leap : Bool) {m n : ℕ} (h : m < n) :
    monthStart leap m + monthLength leap m ≤ monthStart leap n :=
  monthStart_mono leap (Nat.succ_le_of_lt h)

theorem yearStart_mono {y z : ℤ} (h : y ≤ z) : yearStart y ≤ yearStart z := by
  induction z, h using Int.leInduction with
  | base => exact le_rfl
  | succ z _ ih =>
    have long := (yearLength_bounds z).1
    rw [yearStart_succ]
    omega

structure IsDay (y : ℤ) (m : ℕ) (d : ℤ) : Prop where
  month : m < 12
  first : 0 ≤ d
  last : d < monthLength (isLeap y) m

theorem IsDay.ofYear {y : ℤ} {m : ℕ} {d : ℤ} (h : IsDay y m d) :
    0 ≤ monthStart (isLeap y) m + d ∧ monthStart (isLeap y) m + d < yearLength y := by
  have before := monthStart_mono (isLeap y) (Nat.zero_le m)
  have after := monthStart_lt (isLeap y) h.month
  rw [monthStart_twelve] at after
  have first := h.first
  have last := h.last
  rw [monthStart] at before
  omega

theorem IsDay.inYear {y : ℤ} {m : ℕ} {d : ℤ} (h : IsDay y m d) :
    yearStart y ≤ dayNumber y m d ∧ dayNumber y m d < yearStart (y + 1) := by
  have inside := h.ofYear
  rw [yearStart_succ, dayNumber]
  omega

theorem dayNumber_lt {y y' : ℤ} {m m' : ℕ} {d d' : ℤ} (h : IsDay y m d) (h' : IsDay y' m' d')
    (less : y < y' ∨ y = y' ∧ (m < m' ∨ m = m' ∧ d < d')) :
    dayNumber y m d < dayNumber y' m' d' := by
  rcases less with year | ⟨rfl, month | ⟨rfl, day⟩⟩
  · have early := h.inYear.2
    have late := h'.inYear.1
    have years := yearStart_mono (Int.add_one_le_of_lt year)
    omega
  · have months := monthStart_lt (isLeap y) month
    have last := h.last
    have first := h'.first
    unfold dayNumber
    omega
  · unfold dayNumber
    omega

theorem dayNumber_inj {y y' : ℤ} {m m' : ℕ} {d d' : ℤ} (h : IsDay y m d) (h' : IsDay y' m' d')
    (same : dayNumber y m d = dayNumber y' m' d') : y = y' ∧ m = m' ∧ d = d' := by
  have forward := dayNumber_lt h h'
  have backward := dayNumber_lt h' h
  omega

theorem year_unique {n y z : ℤ} (h : yearStart y ≤ n ∧ n < yearStart (y + 1))
    (h' : yearStart z ≤ n ∧ n < yearStart (z + 1)) : y = z := by
  rcases lt_trichotomy y z with less | same | more
  · have years := yearStart_mono (Int.add_one_le_of_lt less)
    omega
  · exact same
  · have years := yearStart_mono (Int.add_one_le_of_lt more)
    omega

def weekday (n : ℤ) : ℤ := n % 7

def thursday (n : ℤ) : ℤ := n - weekday n + 3

/-- The week of a day is numbered in the year that has its Thursday. -/
structure IsoWeek (n year week : ℤ) : Prop where
  inYear : yearStart year ≤ thursday n ∧ thursday n < yearStart (year + 1)
  number : week = (thursday n - yearStart year) / 7 + 1

theorem IsoWeek.unique {n year week year' week' : ℤ} (h : IsoWeek n year week)
    (h' : IsoWeek n year' week') : year = year' ∧ week = week' := by
  have years := year_unique h.inYear h'.inYear
  rw [h.number, h'.number, years]
  exact ⟨rfl, rfl⟩

theorem IsoWeek.lt {n n' year week year' week' : ℤ} (h : IsoWeek n year week)
    (h' : IsoWeek n' year' week') (less : n < n') :
    year < year' ∨ year = year' ∧ (week < week' ∨ week = week' ∧ weekday n < weekday n') := by
  have weeks : thursday n ≤ thursday n' := by
    unfold thursday weekday
    omega
  rcases lt_trichotomy year year' with early | same | late
  · exact .inl early
  · refine .inr ⟨same, ?_⟩
    have here := h.number
    have there := h'.number
    rw [same] at here
    unfold thursday weekday at *
    omega
  · have years := yearStart_mono (Int.add_one_le_of_lt late)
    have here := h.inYear.1
    have there := h'.inYear.2
    omega

theorem IsoWeek.next {n year week : ℤ} (h : IsoWeek n year week) :
    IsoWeek (n + 7) year (week + 1) ∨ IsoWeek (n + 7) (year + 1) 1 := by
  have later : thursday (n + 7) = thursday n + 7 := by
    unfold thursday weekday
    omega
  have inside := h.inYear
  by_cases same : thursday (n + 7) < yearStart (year + 1)
  · refine .inl ⟨by omega, ?_⟩
    rw [h.number, later]
    omega
  · have long := (yearLength_bounds (year + 1)).1
    have after := yearStart_succ (year + 1)
    exact .inr ⟨by omega, by omega⟩

end SkipPlatform.Gregorian
