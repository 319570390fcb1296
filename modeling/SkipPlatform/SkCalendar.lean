import SkipPlatform.SkDateAdd
import SkipPlatform.SkDateWeeks

set_option autoImplicit false

/-! Times of a day and calendars, which are a date, a time and a fixed time zone. Sums and products
of 64 bits are cut once, where they are divided, compared or kept. -/
namespace SkipPlatform.SKDate
open Gregorian

structure TimeEntity where
  hours : ℤ
  minutes : ℤ
  seconds : ℤ
deriving DecidableEq

structure TimeZone extends TimeEntity where
  neg : Bool
deriving DecidableEq

structure Time extends TimeEntity where
  milliseconds : ℤ
deriving DecidableEq

/-- `UInt16::truncate` -/
def truncate16 (n : ℤ) : ℤ := n % 65536

/-- What is left of a total in a unit, and what is carried into the next one. -/
def carry (unit total : ℤ) : ℤ × ℤ :=
  if total ≥ 0 then ((toInt64 |total|).tmod unit, total.tdiv unit)
  else (unit - (toInt64 |total|).tmod unit, total.tdiv unit - 1)

def TimeEntity.addHours (t : TimeEntity) (hours : ℤ) : TimeEntity :=
  { t with hours := toInt64 (t.hours + hours) }

def TimeEntity.addMinutes (t : TimeEntity) (minutes : ℤ) : TimeEntity :=
  if minutes = 0 then t
  else
    let c := carry 60 (toInt64 (t.minutes + minutes))
    { t with minutes := truncate8 c.1 }.addHours c.2

def TimeEntity.addSeconds (t : TimeEntity) (second : ℤ) : TimeEntity :=
  if second = 0 then t
  else
    let c := carry 60 (toInt64 (t.seconds + second))
    { t with seconds := truncate8 c.1 }.addMinutes c.2

def TimeZone.create (neg : Bool) (hours minutes seconds : ℤ) : TimeZone :=
  ⟨((TimeEntity.mk hours (truncate8 0) (truncate8 0)).addMinutes minutes).addSeconds seconds, neg⟩

def utc : TimeZone := TimeZone.create false 0 0 0

def TimeZone.toSeconds (t : TimeZone) : ℤ :=
  let sds := toInt64 (t.hours * 3600 + t.minutes * 60 + t.seconds)
  if t.neg then toInt64 (-sds) else sds

def Time.addMilliseconds (t : Time) (milliseconds : ℤ) : Time :=
  if milliseconds = 0 then t
  else
    let c := carry 1000 (toInt64 (t.milliseconds + milliseconds))
    ⟨t.toTimeEntity.addSeconds c.2, truncate16 c.1⟩

def Time.create (hours minutes seconds milliseconds : ℤ) : Time :=
  let time := TimeEntity.mk hours (truncate8 0) (truncate8 0)
  (Time.mk ((time.addMinutes minutes).addSeconds seconds) (truncate16 0)).addMilliseconds milliseconds

def Time.fromMilliseconds (milliseconds : ℤ) : Time :=
  (Time.mk ⟨0, truncate8 0, truncate8 0⟩ (truncate16 0)).addMilliseconds milliseconds

def Time.toMilliseconds (t : Time) : ℤ :=
  let secondes := t.hours * 3600 + t.minutes * 60 + t.seconds
  toInt64 (t.milliseconds + secondes * 1000)

def Time.inv (t : Time) : Time :=
  Time.fromMilliseconds (toInt64 (24 * 3600000 - t.toMilliseconds))

def Time.compare (t other : Time) : Ordering :=
  if t.hours = other.hours then
    if t.minutes = other.minutes then
      if t.seconds = other.seconds then Ord.compare t.milliseconds other.milliseconds
      else Ord.compare t.seconds other.seconds
    else Ord.compare t.minutes other.minutes
  else Ord.compare t.hours other.hours

structure Calendar where
  date : Date
  time : Time
  timezone : TimeZone
deriving DecidableEq

namespace Calendar

def create (date : Date) (time : Time) (tz : TimeZone) : Option Calendar := do
  let rtime := Time.create (time.hours.tmod 24) time.minutes time.seconds time.milliseconds
  let rdate ← date.addDays (time.hours.tdiv 24)
  some ⟨rdate, rtime, tz⟩

def fhours (chours : ℤ) : ℤ :=
  if chours ≥ 0 then chours.tmod 24 else 24 - (toInt64 |chours|).tmod 24

def fdays (chours : ℤ) : ℤ := if chours ≥ 0 then chours.tdiv 24 else -(|chours + 1|.tdiv 24) - 1

def addHours (c : Calendar) (hours : ℤ) : Option Calendar := do
  let time := c.time.toTimeEntity.addHours hours
  let rtime := Time.create ((fhours time.hours).tmod 24) time.minutes time.seconds c.time.milliseconds
  let rdate ← c.date.addDays (fdays time.hours)
  some ⟨rdate, rtime, c.timezone⟩

/-- The hours of a time that was added to are added after the rest of it. -/
def addTime (c : Calendar) (time : TimeEntity) : Option Calendar :=
  addHours ⟨c.date, Time.create 0 time.minutes time.seconds c.time.milliseconds, c.timezone⟩ time.hours

def addMinutes (c : Calendar) (minutes : ℤ) : Option Calendar :=
  c.addTime (c.time.toTimeEntity.addMinutes minutes)

def addSeconds (c : Calendar) (seconds : ℤ) : Option Calendar :=
  c.addTime (c.time.toTimeEntity.addSeconds seconds)

def addMilliseconds (c : Calendar) (milliseconds : ℤ) : Option Calendar :=
  create c.date (c.time.addMilliseconds milliseconds) c.timezone

def deriveTimeZone (c : Calendar) (timezone : TimeZone) : Option Calendar :=
  if timezone = c.timezone then some c
  else do
    let calendar ← c.addSeconds (toInt64 (timezone.toSeconds - c.timezone.toSeconds))
    some ⟨calendar.date, calendar.time, timezone⟩

def epoch (milliseconds : ℤ) (tz : TimeZone) : Option Calendar := do
  let date ← Date.create 1970 1 1
  let dt ← create date (Time.fromMilliseconds milliseconds) (TimeZone.create false 0 0 0)
  dt.deriveTimeZone tz

/-- The value of `toEpoch` for a calendar of the time zone `utc`. -/
def utcValue (calendar : Calendar) : Option ℤ :=
  if calendar.date.year ≥ 1970 then do
    let days ← calendar.date.daysSince 1970
    let time := calendar.time
    let seconds := time.seconds + 60 * time.minutes + 3600 * (time.hours + 24 * days)
    some (toInt64 (1000 * seconds + time.milliseconds))
  else do
    let days ← calendar.date.daysUntil 1970
    let time := calendar.time.inv
    let seconds := time.seconds + 60 * time.minutes + 3600 * (time.hours + 24 * days)
    some (toInt64 (-(1000 * seconds + time.milliseconds)))

def toEpoch (c : Calendar) (asSeconds : Bool) : Option ℤ := do
  let calendar ← (if c.timezone ≠ utc then c.deriveTimeZone utc else some c)
  let value ← calendar.utcValue
  some (if asSeconds then value.tdiv 1000 else value)

def compare (c other : Calendar) : Option Ordering := do
  let other ← (if c.timezone ≠ other.timezone then other.deriveTimeZone c.timezone else some other)
  some (if c.date = other.date then c.time.compare other.time else c.date.compare other.date)

end Calendar

/-- A number whose absolute value fits as well. -/
def AbsInt (n : ℤ) : Prop := -2 ^ 63 < n ∧ n < 2 ^ 63

theorem AbsInt.toInt64_eq {n : ℤ} (h : AbsInt n) : toInt64 n = n := by
  unfold AbsInt at h
  exact IsInt.toInt64_eq ⟨by omega, h.2⟩

theorem toInt64_abs {n : ℤ} (h : AbsInt n) : toInt64 |n| = |n| := by
  unfold AbsInt at h
  exact IsInt.toInt64_eq ⟨by have first := abs_nonneg n; omega, abs_lt.mpr ⟨h.1, h.2⟩⟩

theorem carry_spec {unit total : ℤ} (h : 0 < unit) (fits : AbsInt total) :
    (carry unit total).1 + unit * (carry unit total).2 = total ∧
    (0 ≤ total → 0 ≤ (carry unit total).1 ∧ (carry unit total).1 < unit ∧ 0 ≤ (carry unit total).2) ∧
    (total < 0 → 1 ≤ (carry unit total).1 ∧ (carry unit total).1 ≤ unit ∧ (carry unit total).2 < 0) := by
  have rest := Int.tmod_nonneg unit (abs_nonneg total)
  have less := Int.tmod_lt_of_pos |total| h
  have split := Int.tmod_add_mul_tdiv |total| unit
  unfold carry
  rw [toInt64_abs fits]
  rcases le_or_gt 0 total with pos | neg
  · have count := Int.tdiv_nonneg pos h.le
    rw [if_pos pos]
    rw [abs_of_nonneg pos] at *
    exact ⟨split, fun _ => ⟨rest, less, count⟩, fun neg => absurd pos neg.not_ge⟩
  · have count := Int.tdiv_nonneg (neg_nonneg.mpr neg.le) h.le
    rw [if_neg neg.not_ge]
    rw [abs_of_neg neg] at *
    rw [Int.neg_tdiv] at split count
    refine ⟨?_, fun pos => absurd pos neg.not_ge, fun _ => ⟨?_, ?_, ?_⟩⟩ <;> dsimp only
    · rw [mul_neg] at split
      rw [mul_sub, mul_one]
      omega
    all_goals omega

/-- A part of a time; the unit itself can be left by a negative total. -/
def Digit (unit n : ℤ) : Prop := 0 ≤ n ∧ n ≤ unit

theorem truncate8_digit {n : ℤ} (h : Digit 60 n) : truncate8 n = n := by
  unfold truncate8
  unfold Digit at h
  omega

theorem carry_digit {unit total : ℤ} (h : 0 < unit) (fits : AbsInt total) :
    Digit unit (carry unit total).1 := by
  unfold Digit
  obtain ⟨-, pos, neg⟩ := carry_spec h fits
  rcases le_or_gt 0 total with h | h
  · have bounds := pos h
    omega
  · have bounds := neg h
    omega

/-- So far from the bounds that carries do not reach them. -/
def Small (n : ℤ) : Prop := -2 ^ 61 ≤ n ∧ n ≤ 2 ^ 61

def TimeEntity.total (t : TimeEntity) : ℤ := (t.hours * 60 + t.minutes) * 60 + t.seconds

theorem TimeEntity.addMinutes_spec (t : TimeEntity) {n : ℤ} (hours : Small t.hours)
    (fits : AbsInt (t.minutes + n)) :
    (t.addMinutes n).total = t.total + 60 * n ∧ (t.addMinutes n).seconds = t.seconds ∧
    (Digit 60 t.minutes → Digit 60 (t.addMinutes n).minutes ∧ (0 ≤ n → t.minutes < 60 →
      (t.addMinutes n).minutes < 60)) ∧
    (t.minutes + n < 0 → n ≠ 0 → 1 ≤ (t.addMinutes n).minutes) := by
  have bounds := carry_digit (by omega : (0 : ℤ) < 60) fits
  obtain ⟨sum, pos, neg⟩ := carry_spec (by omega : (0 : ℤ) < 60) fits
  have more : IsInt (t.hours + (carry 60 (t.minutes + n)).2) := by
    unfold AbsInt Small Digit IsInt at *
    omega
  unfold addMinutes
  split
  · rename_i none
    rw [none]
    exact ⟨by omega, rfl, fun h => ⟨h, fun _ less => less⟩, fun _ other => absurd rfl other⟩
  · dsimp only [addHours, total]
    rw [fits.toInt64_eq, truncate8_digit bounds, more.toInt64_eq]
    exact ⟨by omega, rfl, fun h => ⟨bounds, fun h' _ => (pos (by have first := h.1; omega)).2.1⟩,
      fun h _ => (neg h).1⟩

theorem TimeEntity.addSeconds_spec (t : TimeEntity) {n : ℤ} (hours : Small t.hours)
    (minutes : Digit 60 t.minutes) (fits : AbsInt (t.seconds + n)) :
    (t.addSeconds n).total = t.total + n ∧
    (Digit 60 t.seconds →
      Digit 60 (t.addSeconds n).minutes ∧ Digit 60 (t.addSeconds n).seconds ∧
      (0 ≤ n → t.minutes < 60 → t.seconds < 60 →
        (t.addSeconds n).minutes < 60 ∧ (t.addSeconds n).seconds < 60)) ∧
    (t.minutes * 60 + t.seconds + n < 0 → n < 0 →
      1 ≤ (t.addSeconds n).minutes ∧ 1 ≤ (t.addSeconds n).seconds) := by
  have bounds := carry_digit (by omega : (0 : ℤ) < 60) fits
  obtain ⟨sum, pos, neg⟩ := carry_spec (by omega : (0 : ℤ) < 60) fits
  have fits' : AbsInt (t.minutes + (carry 60 (t.seconds + n)).2) := by
    unfold AbsInt Digit at *
    omega
  unfold addSeconds
  split
  · rename_i none
    rw [none]
    exact ⟨by omega, fun s => ⟨minutes, s, fun _ m' s' => ⟨m', s'⟩⟩,
      fun _ other => absurd other (by omega)⟩
  · dsimp only
    rw [fits.toInt64_eq, truncate8_digit bounds]
    obtain ⟨more, same, up, down⟩ := addMinutes_spec
      { t with seconds := (carry 60 (t.seconds + n)).1 } hours fits'
    rw [more, same]
    have first := minutes.1
    dsimp only [total] at *
    refine ⟨by omega, fun s => ⟨(up minutes).1, bounds, fun h m' s' => ?_⟩, fun h h' => ?_⟩
    · have first' := s.1
      have low := pos (by omega)
      exact ⟨(up minutes).2 low.2.2 m', low.2.1⟩
    · exact ⟨down (by omega) (by omega), (neg (by omega)).1⟩

def Time.total (t : Time) : ℤ := t.toTimeEntity.total * 1000 + t.milliseconds

structure Time.Digits (t : Time) : Prop where
  minutes : Digit 60 t.minutes
  seconds : Digit 60 t.seconds
  milliseconds : Digit 2000 t.milliseconds

structure Time.Low (t : Time) : Prop extends t.Digits where
  minutes_lt : t.minutes < 60
  seconds_lt : t.seconds < 60
  milliseconds_lt : t.milliseconds < 1000

theorem truncate16_digit {n : ℤ} (h : Digit 2000 n) : truncate16 n = n := by
  unfold truncate16
  unfold Digit at h
  omega

/-- How far a sum with the milliseconds goes, which is cut to 64 bits. The absolute value of the
lowest number does not fit, so that its rest is taken from the wrong side. -/
def goes (milliseconds n : ℤ) : ℤ :=
  if toInt64 (milliseconds + n) = -2 ^ 63 then -2 ^ 63 + 1616 - milliseconds
  else toInt64 (milliseconds + n) - milliseconds

theorem goes_of_fits {milliseconds n : ℤ} (fits : AbsInt (milliseconds + n)) :
    goes milliseconds n = n := by
  unfold goes
  rw [fits.toInt64_eq, if_neg fits.1.ne', add_sub_cancel_left]

theorem carry_milliseconds (t : ℤ) (inT : IsInt t) :
    Digit 2000 (carry 1000 t).1 ∧
    (carry 1000 t).1 + 1000 * (carry 1000 t).2 = (if t = -2 ^ 63 then -2 ^ 63 + 1616 else t) ∧
    (0 ≤ t → (carry 1000 t).1 < 1000 ∧ 0 ≤ (carry 1000 t).2) ∧
    (t < 0 → 1 ≤ (carry 1000 t).1 ∧ (carry 1000 t).2 < 0) ∧
    (t ≠ -2 ^ 63 → Digit 1000 (carry 1000 t).1) := by
  by_cases lowest : t = -2 ^ 63
  · rw [lowest]
    exact ⟨⟨by decide, by decide⟩, by decide, fun pos => absurd pos (by decide),
      fun _ => ⟨by decide, by decide⟩, fun other => absurd rfl other⟩
  · have fits : AbsInt t := ⟨lt_of_le_of_ne inT.1 (Ne.symm lowest), inT.2⟩
    have bounds := carry_digit (by omega : (0 : ℤ) < 1000) fits
    obtain ⟨sum, pos, neg⟩ := carry_spec (by omega : (0 : ℤ) < 1000) fits
    rw [if_neg lowest]
    exact ⟨⟨bounds.1, bounds.2.trans (by omega)⟩, sum, fun h => (pos h).2, fun h => ⟨(neg h).1,
      (neg h).2.2⟩, fun _ => bounds⟩

theorem Time.addMilliseconds_spec {t : Time} (h : t.Low) (hours : Small t.hours) (n : ℤ) :
    (t.addMilliseconds n).total = t.total + goes t.milliseconds n ∧ (t.addMilliseconds n).Digits ∧
    (0 ≤ toInt64 (t.milliseconds + n) → (t.addMilliseconds n).Low) ∧
    (t.total + goes t.milliseconds n < 0 → 0 ≤ t.hours → 1 ≤ (t.addMilliseconds n).minutes ∧
      1 ≤ (t.addMilliseconds n).seconds ∧ 1 ≤ (t.addMilliseconds n).milliseconds) ∧
    (toInt64 (t.milliseconds + n) ≠ -2 ^ 63 → Digit 1000 (t.addMilliseconds n).milliseconds) := by
  obtain ⟨⟨minutes, seconds, milliseconds⟩, minutes_lt, seconds_lt, milliseconds_lt⟩ := id h
  have inT := isInt_toInt64 (t.milliseconds + n)
  unfold addMilliseconds
  split
  · rename_i none
    have fits : AbsInt (t.milliseconds + 0) := by
      unfold AbsInt Digit at *
      omega
    rw [none, goes_of_fits fits, add_zero]
    refine ⟨rfl, h.toDigits, fun _ => h, fun neg hours => absurd neg ?_,
      fun _ => ⟨milliseconds.1, milliseconds_lt.le⟩⟩
    unfold Digit at *
    unfold total TimeEntity.total
    omega
  · dsimp only
    have far : goes t.milliseconds n = (if toInt64 (t.milliseconds + n) = -2 ^ 63 then -2 ^ 63 + 1616
        else toInt64 (t.milliseconds + n)) - t.milliseconds := by
      unfold goes
      split <;> rfl
    obtain ⟨bounds, sum, pos, neg, thousand⟩ := carry_milliseconds _ inT
    rw [truncate16_digit bounds]
    have fits : AbsInt (t.seconds + (carry 1000 (toInt64 (t.milliseconds + n))).2) := by
      unfold AbsInt Digit IsInt at *
      split_ifs at sum <;> omega
    obtain ⟨more, up, down⟩ := t.toTimeEntity.addSeconds_spec hours minutes fits
    unfold total
    rw [more]
    have parts := up seconds
    refine ⟨by dsimp only; omega, ⟨parts.1, parts.2.1, bounds⟩, fun h' => ?_, fun less hours => ?_,
      thousand⟩
    · have parts' := parts.2.2 (pos h').2 minutes_lt seconds_lt
      exact ⟨⟨parts.1, parts.2.1, bounds⟩, parts'.1, parts'.2, (pos h').1⟩
    · unfold TimeEntity.total at less
      have first := minutes.1
      have first' := seconds.1
      have first'' := milliseconds.1
      have before : toInt64 (t.milliseconds + n) < 0 := by
        by_contra after
        have low := pos (not_lt.mp after)
        have first := bounds.1
        omega
      have low := neg before
      have parts' := down (by split_ifs at far sum <;> omega) low.2
      exact ⟨parts'.1, parts'.2, low.1⟩

theorem Time.create_spec (hours : ℤ) {minutes seconds milliseconds : ℤ}
    (small : -24 < hours ∧ hours < 24) (m : Digit 60 minutes) (s : Digit 60 seconds) (ms : Digit 2000 milliseconds) :
    (Time.create hours minutes seconds milliseconds).Low ∧
      (Time.create hours minutes seconds milliseconds).total =
        ((hours * 60 + minutes) * 60 + seconds) * 1000 + milliseconds := by
  have inMinutes : AbsInt (0 + minutes) := by
    unfold AbsInt Digit at *
    omega
  obtain ⟨total, same, up, -⟩ := (TimeEntity.mk hours 0 0).addMinutes_spec
    (by unfold Small; dsimp only; omega) inMinutes
  dsimp only at same up
  have parts := up ⟨le_rfl, by decide⟩
  have small' : Small ((TimeEntity.mk hours 0 0).addMinutes minutes).hours := by
    have low := parts.1
    unfold TimeEntity.total at total
    unfold Small Digit at *
    dsimp only at total
    omega
  have inSeconds : AbsInt (((TimeEntity.mk hours 0 0).addMinutes minutes).seconds + seconds) := by
    rw [same]
    unfold AbsInt Digit at *
    omega
  obtain ⟨total', up', -⟩ := ((TimeEntity.mk hours 0 0).addMinutes minutes).addSeconds_spec small'
    parts.1 inSeconds
  have parts' := up' ⟨same.ge, same.le.trans (by decide)⟩
  have less := parts'.2.2 s.1 (parts.2 m.1 (by omega)) (by omega)
  have small'' : Small (((TimeEntity.mk hours 0 0).addMinutes minutes).addSeconds seconds).hours := by
    have low := parts'.1
    have low' := parts'.2.1
    rw [total] at total'
    unfold TimeEntity.total at total'
    unfold Small Digit at *
    dsimp only at total'
    omega
  have inMilliseconds : AbsInt (0 + milliseconds) := by
    unfold AbsInt Digit at *
    omega
  obtain ⟨total'', -, low, -⟩ := Time.addMilliseconds_spec (t := ⟨((TimeEntity.mk hours 0 0).addMinutes
    minutes).addSeconds seconds, 0⟩) ⟨⟨parts'.1, parts'.2.1, ⟨le_rfl, by dsimp only; omega⟩⟩, less.1, less.2,
      by dsimp only; omega⟩ small'' milliseconds
  rw [goes_of_fits inMilliseconds] at total''
  refine ⟨low (by rw [inMilliseconds.toInt64_eq]; have first := ms.1; omega), total''.trans ?_⟩
  rw [Time.total, total', total]
  dsimp only [TimeEntity.total]
  omega

theorem Time.fromMilliseconds_spec (n : ℤ) :
    (Time.fromMilliseconds n).total = goes 0 n ∧ (Time.fromMilliseconds n).Digits := by
  obtain ⟨total, digits, -⟩ := Time.addMilliseconds_spec (t := ⟨⟨0, 0, 0⟩, 0⟩)
    ⟨⟨⟨le_rfl, by decide⟩, ⟨le_rfl, by decide⟩, le_rfl, by decide⟩, by decide, by decide, by decide⟩
    ⟨by decide, by decide⟩ n
  exact ⟨total.trans (zero_add _), digits⟩

/-- Days that do not lead out of the years a date can have. -/
theorem Date.Valid.addDays_near {date : Date} (h : date.Valid) (year : IsInt date.year) (days : ℤ)
    (near : Small days) (first : -2 ^ 70 ≤ date.number + days) (last : date.number + days ≤ 2 ^ 70) :
    ∃ date', date.addDays days = some date' ∧ date'.Valid ∧ IsInt date'.year ∧
      date'.number = date.number + days := by
  have fits : IsInt days := by unfold Small at near; unfold IsInt; omega
  obtain ⟨date', made, valid, inside, number⟩ := h.addDays_number year fits
  refine ⟨date', made, valid, inside, ?_⟩
  have bottom : firstDay ≤ -2 ^ 71 := by decide
  have top : 2 ^ 71 ≤ firstDay + span := by decide
  have day := h.day_bounds
  have same : shift date.day days = days := if_pos (by unfold Small at near; omega)
  rw [number, same, folded, Int.emod_eq_of_lt (by omega) (by omega)]
  omega

/-- The seconds that a time zone is ahead. -/
def TimeZone.offset (z : TimeZone) : ℤ := if z.neg then -z.total else z.total

theorem TimeZone.toSeconds_eq {z : TimeZone} (h : AbsInt z.total) : z.toSeconds = z.offset := by
  have sum : z.hours * 3600 + z.minutes * 60 + z.seconds = z.total := by
    unfold TimeEntity.total
    omega
  have back : AbsInt (-z.total) := by
    unfold AbsInt at *
    omega
  rw [toSeconds, offset, sum, h.toInt64_eq, back.toInt64_eq]

/-- From the one time zone one gets to the other one with any seconds of a minute. -/
def Apart (z z' : TimeZone) : Prop :=
  -2 ^ 63 < z'.offset - z.offset ∧ z'.offset - z.offset < 2 ^ 63 - 60

namespace Calendar

/-- What all calendars have that are made of dates and times. -/
structure Sound (c : Calendar) : Prop where
  date : c.date.Valid
  year : IsInt c.date.year
  digits : c.time.Digits
  hours : -24 < c.time.hours ∧ c.time.hours < 26

structure WellFormed (c : Calendar) : Prop where
  date : c.date.Valid
  year : IsInt c.date.year
  first : 0 ≤ c.time.hours
  last : c.time.hours < 24
  low : c.time.Low

def number (c : Calendar) : ℤ := 86400000 * (c.date.number - 719162) + c.time.total

def instant (c : Calendar) : ℤ := c.number - 1000 * c.timezone.offset

/-- The date is so far from the bounds that it does not come to them by what is added here. -/
def Near (c : Calendar) : Prop := -2 ^ 66 ≤ c.date.number ∧ c.date.number ≤ 2 ^ 66

theorem WellFormed.sound {c : Calendar} (h : c.WellFormed) : c.Sound :=
  ⟨h.date, h.year, h.low.toDigits, by have first := h.first; omega, h.last.trans (by omega)⟩

theorem hours_iff {t : Time} (h : t.Low) :
    0 ≤ t.hours ∧ t.hours < 24 ↔ 0 ≤ t.total ∧ t.total < 86400000 := by
  obtain ⟨⟨m, s, ms⟩, m', s', ms'⟩ := h
  unfold Digit at *
  unfold Time.total TimeEntity.total
  omega

theorem create_spec {date : Date} {time : Time} (tz : TimeZone) (h : date.Valid)
    (year : IsInt date.year) (near : -2 ^ 66 ≤ date.number ∧ date.number ≤ 2 ^ 66)
    (t : time.Digits) (small : Small time.hours) :
    ∃ c, create date time tz = some c ∧ c.Sound ∧ c.time.Low ∧ c.timezone = tz ∧
      c.number = number ⟨date, time, tz⟩ ∧
      c.time.total = time.total - 86400000 * time.hours.tdiv 24 := by
  have split := Int.tmod_add_mul_tdiv time.hours 24
  have below := Int.tmod_lt_of_pos time.hours (by omega : (0 : ℤ) < 24)
  have above := Int.lt_tmod_of_pos time.hours (by omega : (0 : ℤ) < 24)
  obtain ⟨rdate, made, valid, year', days⟩ := h.addDays_near year (time.hours.tdiv 24)
    (by unfold Small at *; omega) (by unfold Small at *; omega) (by unfold Small at *; omega)
  obtain ⟨low, total⟩ := Time.create_spec _ ⟨above, below⟩ t.minutes t.seconds t.milliseconds
  have here : (Time.create (time.hours.tmod 24) time.minutes time.seconds time.milliseconds).total =
      time.total - 86400000 * time.hours.tdiv 24 := by
    rw [total]
    unfold Time.total TimeEntity.total
    omega
  refine ⟨⟨rdate, Time.create (time.hours.tmod 24) time.minutes time.seconds time.milliseconds, tz⟩, ?_,
    ⟨valid, year', low.toDigits, ?_⟩, low, rfl, ?_, here⟩
  · rw [create, made]
    rfl
  · obtain ⟨⟨m, s, ms⟩, m_lt, s_lt, ms_lt⟩ := low
    obtain ⟨m', s', ms'⟩ := t
    unfold Time.total TimeEntity.total at total
    unfold Digit at *
    dsimp only
    omega
  · unfold number
    dsimp only
    omega

theorem fhours_spec {chours : ℤ} (fits : AbsInt chours) :
    (fhours chours).tmod 24 + 24 * fdays chours = chours ∧
    0 ≤ (fhours chours).tmod 24 ∧ (fhours chours).tmod 24 < 24 := by
  unfold fhours fdays
  rw [toInt64_abs fits]
  rcases le_or_gt 0 chours with pos | neg
  · rw [if_pos pos, if_pos pos, Int.tmod_eq_emod_of_nonneg pos, Int.tdiv_eq_ediv_of_nonneg pos,
      Int.tmod_eq_emod_of_nonneg (by omega)]
    omega
  · rw [if_neg neg.not_ge, if_neg neg.not_ge, abs_of_neg neg, abs_of_nonpos (by omega),
      Int.tmod_eq_emod_of_nonneg (show 0 ≤ -chours by omega), Int.tdiv_eq_ediv_of_nonneg (by omega),
      Int.tmod_eq_emod_of_nonneg (by omega)]
    omega

theorem addHours_spec {c : Calendar} (h : c.date.Valid) (year : IsInt c.date.year) (near : c.Near)
    (t : c.time.Low) {n : ℤ} (fits : AbsInt (c.time.hours + n)) :
    ∃ c', c.addHours n = some c' ∧ c'.WellFormed ∧ c'.timezone = c.timezone ∧
      c'.number = c.number + 3600000 * n := by
  obtain ⟨split, first, last⟩ := fhours_spec fits
  obtain ⟨rdate, added, valid, year', days⟩ := h.addDays_near year (fdays (c.time.hours + n))
    (by unfold Small AbsInt at *; omega) (by unfold Near AbsInt at *; omega)
    (by unfold Near AbsInt at *; omega)
  obtain ⟨low, total⟩ := Time.create_spec ((fhours (c.time.hours + n)).tmod 24) (by omega)
    t.minutes t.seconds t.milliseconds
  have inside := t.minutes_lt
  have inside' := t.seconds_lt
  have inside'' := t.milliseconds_lt
  have bounds := (hours_iff low).mpr (by
    obtain ⟨⟨m, s, ms⟩, -⟩ := t
    unfold Digit at m s ms
    omega)
  refine ⟨⟨rdate, Time.create ((fhours (c.time.hours + n)).tmod 24) c.time.minutes c.time.seconds
    c.time.milliseconds, c.timezone⟩, ?_, ⟨valid, year', bounds.1, bounds.2, low⟩, rfl, ?_⟩
  · rw [addHours, TimeEntity.addHours, fits.toInt64_eq, added]
    rfl
  · unfold number
    dsimp only
    rw [total]
    unfold Time.total TimeEntity.total
    omega

theorem addTime_spec {c : Calendar} (h : c.date.Valid) (year : IsInt c.date.year) (near : c.Near)
    {time : TimeEntity} (small : Small time.hours) (m : Digit 60 time.minutes)
    (s : Digit 60 time.seconds) (ms : Digit 2000 c.time.milliseconds) :
    ∃ c', c.addTime time = some c' ∧ c'.WellFormed ∧ c'.timezone = c.timezone ∧
      c'.number = c.number + 1000 * (time.total - c.time.toTimeEntity.total) := by
  obtain ⟨low, total⟩ := Time.create_spec 0 (by decide) m s ms
  have fits : AbsInt ((Time.create 0 time.minutes time.seconds c.time.milliseconds).hours +
      time.hours) := by
    obtain ⟨⟨m', s', ms'⟩, -⟩ := low
    unfold Time.total TimeEntity.total at total
    unfold AbsInt Digit Small at *
    omega
  obtain ⟨c', made, wellFormed, same, moved⟩ := addHours_spec
    (c := ⟨c.date, Time.create 0 time.minutes time.seconds c.time.milliseconds, c.timezone⟩) h year
    near low fits
  refine ⟨c', made, wellFormed, same, ?_⟩
  rw [moved]
  unfold number
  dsimp only
  rw [total]
  unfold Time.total TimeEntity.total
  omega

variable {c : Calendar}

theorem addMinutes_spec (h : c.Sound) (near : c.Near) {n : ℤ} (fits : AbsInt (c.time.minutes + n)) :
    ∃ c', c.addMinutes n = some c' ∧ c'.WellFormed ∧ c'.timezone = c.timezone ∧
      c'.number = c.number + 60000 * n := by
  have hours := h.hours
  obtain ⟨m, s, ms⟩ := h.digits
  obtain ⟨total, same, up, -⟩ := c.time.toTimeEntity.addMinutes_spec (by unfold Small; omega) fits
  have small : Small (c.time.toTimeEntity.addMinutes n).hours := by
    have low := (up m).1
    unfold TimeEntity.total at total
    unfold Small Digit AbsInt at *
    omega
  obtain ⟨c', made, wellFormed, zone, moved⟩ := addTime_spec h.date h.year near small (up m).1
    (same.symm ▸ s) ms
  exact ⟨c', made, wellFormed, zone, by rw [moved, total]; omega⟩

theorem addSeconds_spec (h : c.Sound) (near : c.Near) {n : ℤ} (fits : AbsInt (c.time.seconds + n)) :
    ∃ c', c.addSeconds n = some c' ∧ c'.WellFormed ∧ c'.timezone = c.timezone ∧
      c'.number = c.number + 1000 * n := by
  have hours := h.hours
  obtain ⟨m, s, ms⟩ := h.digits
  obtain ⟨total, up, -⟩ := c.time.toTimeEntity.addSeconds_spec (by unfold Small; omega) m fits
  have parts := up s
  have small : Small (c.time.toTimeEntity.addSeconds n).hours := by
    have low := parts.1
    have low' := parts.2.1
    unfold TimeEntity.total at total
    unfold Small Digit AbsInt at *
    omega
  obtain ⟨c', made, wellFormed, zone, moved⟩ := addTime_spec h.date h.year near small parts.1
    parts.2.1 ms
  exact ⟨c', made, wellFormed, zone, by rw [moved, total]; omega⟩

theorem deriveTimeZone_spec (h : c.Sound) (near : c.Near) (tz : TimeZone)
    (here : AbsInt c.timezone.total) (there : AbsInt tz.total) (apart : Apart c.timezone tz) :
    ∃ c', c.deriveTimeZone tz = some c' ∧ c'.Sound ∧ c'.timezone = tz ∧ c'.instant = c.instant ∧
      (c.WellFormed → c'.WellFormed) := by
  unfold deriveTimeZone
  by_cases same : tz = c.timezone
  · rw [if_pos same]
    exact ⟨c, rfl, h, same.symm, rfl, fun wellFormed => wellFormed⟩
  · have seconds := h.digits.seconds
    have fits : AbsInt (c.time.seconds + (tz.offset - c.timezone.offset)) := by
      unfold Apart Digit at *
      unfold AbsInt
      omega
    have inInt : IsInt (tz.offset - c.timezone.offset) := by
      unfold Apart at apart
      unfold IsInt
      omega
    obtain ⟨c', made, wellFormed, -, moved⟩ := addSeconds_spec h near fits
    rw [if_neg same, TimeZone.toSeconds_eq here, TimeZone.toSeconds_eq there, inInt.toInt64_eq, made]
    refine ⟨⟨c'.date, c'.time, tz⟩, rfl,
      ⟨wellFormed.date, wellFormed.year, wellFormed.low.toDigits, wellFormed.sound.hours⟩, rfl, ?_,
      fun _ => ⟨wellFormed.date, wellFormed.year, wellFormed.first, wellFormed.last, wellFormed.low⟩⟩
    unfold instant
    unfold number at *
    dsimp only
    omega

theorem toEpoch_eq (h : c.Sound) (near : c.Near) (here : AbsInt c.timezone.total)
    (apart : Apart c.timezone utc) : c.toEpoch false = some (toInt64 c.instant) := by
  obtain ⟨c', made, sound, zone, same, -⟩ :=
    deriveTimeZone_spec h near utc here ⟨by decide, by decide⟩ apart
  have derived : (if c.timezone ≠ utc then c.deriveTimeZone utc else some c) = some c' := by
    by_cases zero : c.timezone = utc
    · rw [if_neg (not_not.mpr zero), ← made, deriveTimeZone, if_pos zero.symm]
    · rw [if_pos zero, made]
  have none : utc.offset = 0 := by decide
  have hours := sound.hours
  obtain ⟨m, s, ms⟩ := sound.digits
  rw [toEpoch, derived, ← same, instant, zone, none]
  rw [Option.bind_eq_bind, Option.bind_some, utcValue]
  by_cases since : 1970 ≤ c'.date.year
  · rw [if_pos since, Date.daysSince_eq since]
    change some (toInt64 _) = some (toInt64 _)
    unfold number Time.total TimeEntity.total
    congr 2
    omega
  · rw [if_neg since, Date.daysUntil_eq (not_le.mp since)]
    change some (toInt64 _) = some (toInt64 _)
    have inner : IsInt (c'.time.milliseconds + (c'.time.hours * 3600 + c'.time.minutes * 60 +
        c'.time.seconds) * 1000) := by
      unfold Digit at *
      unfold IsInt
      omega
    have outer : AbsInt (0 + (24 * 3600000 - (c'.time.milliseconds + (c'.time.hours * 3600 +
        c'.time.minutes * 60 + c'.time.seconds) * 1000))) := by
      unfold Digit at *
      unfold AbsInt
      omega
    have inv := (Time.fromMilliseconds_spec (24 * 3600000 - (c'.time.milliseconds +
      (c'.time.hours * 3600 + c'.time.minutes * 60 + c'.time.seconds) * 1000))).1
    have here : c'.time.inv = Time.fromMilliseconds (24 * 3600000 - (c'.time.milliseconds +
        (c'.time.hours * 3600 + c'.time.minutes * 60 + c'.time.seconds) * 1000)) := by
      rw [zero_add] at outer
      rw [Time.inv, Time.toMilliseconds, inner.toInt64_eq, outer.toInt64_eq]
    rw [goes_of_fits outer, ← here] at inv
    unfold number Time.total TimeEntity.total at *
    congr 2
    omega

theorem isInt_toEpoch {e : ℤ} (h : c.toEpoch false = some e) : IsInt e := by
  obtain ⟨calendar, -, h⟩ := Option.bind_eq_some_iff.mp h
  obtain ⟨value, made, h⟩ := Option.bind_eq_some_iff.mp h
  have same : value = e := Option.some_inj.mp h
  rw [← same]
  unfold utcValue at made
  split at made
  · obtain ⟨days, -, made⟩ := Option.bind_eq_some_iff.mp made
    rw [← Option.some_inj.mp made]
    exact isInt_toInt64 _
  · obtain ⟨days, -, made⟩ := Option.bind_eq_some_iff.mp made
    rw [← Option.some_inj.mp made]
    exact isInt_toInt64 _

theorem goes_bounds {t n : ℤ} (first : 0 ≤ t) (last : t < 1000) :
    -2 ^ 63 - 1000 ≤ goes t n ∧ goes t n < 2 ^ 63 ∧ (toInt64 (t + n) < 0 → goes t n < 0) ∧
      goes t n + t = if toInt64 (t + n) = -2 ^ 63 then -2 ^ 63 + 1616 else toInt64 (t + n) := by
  have inT := isInt_toInt64 (t + n)
  unfold IsInt at inT
  unfold goes
  split_ifs <;> omega

theorem addMilliseconds_spec (h : c.WellFormed) (near : c.Near) (n : ℤ) :
    ∃ c', c.addMilliseconds n = some c' ∧ c'.Sound ∧ c'.timezone = c.timezone ∧
      c'.number = c.number + goes c.time.milliseconds n ∧
      (toInt64 (c.time.milliseconds + n) ≠ -2 ^ 63 → (c'.WellFormed ↔
        0 ≤ c.time.total + goes c.time.milliseconds n ∨
          (c.time.total + goes c.time.milliseconds n) % 86400000 ≤ 3661000)) := by
  have first := h.first
  have last := h.last
  obtain ⟨sum, digits, forward, backward, thousand⟩ :=
    Time.addMilliseconds_spec h.low (by unfold Small; omega) n
  obtain ⟨far, far', down, -⟩ :=
    goes_bounds (n := n) h.low.milliseconds.1 h.low.milliseconds_lt
  have bounds := (hours_iff h.low).mp ⟨first, h.last⟩
  have parts : (c.time.addMilliseconds n).total = ((((c.time.addMilliseconds n).hours * 60 +
    (c.time.addMilliseconds n).minutes) * 60 + (c.time.addMilliseconds n).seconds) * 1000 +
      (c.time.addMilliseconds n).milliseconds) := rfl
  have small : Small (c.time.addMilliseconds n).hours := by
    obtain ⟨m, s, ms⟩ := digits
    unfold Small Digit at *
    omega
  obtain ⟨c', made, sound, low, zone, moved, total⟩ :=
    create_spec c.timezone h.date h.year near digits small
  have split := Int.tmod_add_mul_tdiv (c.time.addMilliseconds n).hours 24
  have below := Int.tmod_lt_of_pos (c.time.addMilliseconds n).hours (by omega : (0 : ℤ) < 24)
  have above := Int.lt_tmod_of_pos (c.time.addMilliseconds n).hours (by omega : (0 : ℤ) < 24)
  obtain ⟨minutes, seconds, milliseconds⟩ := digits
  refine ⟨c', made, sound, zone, by rw [moved]; unfold number; dsimp only; omega, fun other => ?_⟩
  have hours : c'.WellFormed ↔ 0 ≤ c'.time.total ∧ c'.time.total < 86400000 :=
    ⟨fun well => (hours_iff low).mp ⟨well.first, well.last⟩, fun inside =>
      ⟨sound.date, sound.year, ((hours_iff low).mpr inside).1, ((hours_iff low).mpr inside).2, low⟩⟩
  have digit := thousand other
  rw [hours, total]
  unfold Digit at *
  generalize c.time.addMilliseconds n = t at *
  generalize goes c.time.milliseconds n = k at *
  rcases lt_or_ge (c.time.total + k) 0 with before | after
  · have digits := backward before first
    have sign : t.hours.tmod 24 ≤ 0 := by
      rw [← neg_neg t.hours, Int.neg_tmod, Int.tmod_eq_emod_of_nonneg (by omega)]
      omega
    omega
  · refine iff_of_true ?_ (.inl after)
    rcases le_or_gt 0 t.hours with pos | neg
    · rw [Int.tdiv_eq_ediv_of_nonneg pos]
      rcases lt_or_ge (toInt64 (c.time.milliseconds + n)) 0 with back | forth
      · have less := down back
        omega
      · have low := forward forth
        have less := low.minutes_lt
        have less' := low.seconds_lt
        have less'' := low.milliseconds_lt
        omega
    · have back : t.hours = -1 := by omega
      have zero : (-1 : ℤ).tdiv 24 = 0 := rfl
      rw [back, zero]
      omega

theorem compare_parts {k a a' r r' : ℤ} (h : 0 ≤ r ∧ r < k) (h' : 0 ≤ r' ∧ r' < k) :
    (if a = a' then Ord.compare r r' else Ord.compare a a') = Ord.compare (a * k + r) (a' * k + r') := by
  rcases lt_trichotomy a a' with less | same | more
  · have step := mul_le_mul_of_nonneg_right (Int.add_one_le_of_lt less) (by omega : 0 ≤ k)
    rw [add_mul, one_mul] at step
    rw [if_neg less.ne, compare_lt_iff_lt.mpr less, compare_lt_iff_lt.mpr (by omega)]
  · rw [if_pos same, same]
    rcases lt_trichotomy r r' with less | same | more
    · rw [compare_lt_iff_lt.mpr less, compare_lt_iff_lt.mpr (by omega)]
    · rw [same, compare_eq_iff_eq.mpr rfl, compare_eq_iff_eq.mpr rfl]
    · rw [compare_gt_iff_gt.mpr more, compare_gt_iff_gt.mpr (by omega)]
  · have step := mul_le_mul_of_nonneg_right (Int.add_one_le_of_lt more) (by omega : 0 ≤ k)
    rw [add_mul, one_mul] at step
    rw [if_neg more.ne', compare_gt_iff_gt.mpr more, compare_gt_iff_gt.mpr (by omega)]

theorem time_compare {t t' : Time} (h : t.Low) (h' : t'.Low) :
    t.compare t' = Ord.compare t.total t'.total := by
  obtain ⟨⟨m, s, ms⟩, m_lt, s_lt, ms_lt⟩ := h
  obtain ⟨⟨m', s', ms'⟩, m_lt', s_lt', ms_lt'⟩ := h'
  unfold Digit at *
  unfold Time.compare
  rw [compare_parts (k := 1000) (by omega) (by omega), compare_parts (k := 60000) (by omega) (by omega),
    compare_parts (k := 3600000) (by omega) (by omega)]
  unfold Time.total TimeEntity.total
  congr 1 <;> omega

theorem date_compare {date date' : Date} (h : date.Valid) (h' : date'.Valid) (other : date ≠ date') :
    date.compare date' = Ord.compare date.number date'.number := by
  rcases lt_trichotomy date.number date'.number with less | same | more
  · rw [Date.compare_lt h h' less, compare_lt_iff_lt.mpr less]
  · exact absurd (Date.eq_of_number h h' same) other
  · have back := Date.compare_lt h' h more
    rw [compare_gt_iff_gt.mpr more]
    unfold Date.compare at *
    by_cases year : date'.year = date.year
    · rw [if_pos year] at back
      rw [if_pos year.symm]
      by_cases month : date'.month = date.month
      · rw [if_pos month, compare_lt_iff_lt] at back
        rw [if_pos month.symm, compare_gt_iff_gt.mpr back]
      · rw [if_neg month, compare_lt_iff_lt] at back
        rw [if_neg (Ne.symm month), compare_gt_iff_gt.mpr back]
    · rw [if_neg year, compare_lt_iff_lt] at back
      rw [if_neg (Ne.symm year), compare_gt_iff_gt.mpr back]

theorem compare_eq {other : Calendar} (h : c.WellFormed) (h' : other.WellFormed) (near : other.Near)
    (here : AbsInt c.timezone.total) (there : AbsInt other.timezone.total)
    (apart : Apart other.timezone c.timezone) :
    c.compare other = some (Ord.compare c.instant other.instant) := by
  obtain ⟨derived, made, -, zone, same, well⟩ :=
    deriveTimeZone_spec h'.sound near _ there here apart
  have wellDerived := well h'
  have found : (if c.timezone ≠ other.timezone then other.deriveTimeZone c.timezone else some other) =
      some derived := by
    by_cases zero : c.timezone = other.timezone
    · rw [if_neg (not_not.mpr zero), ← made, deriveTimeZone, if_pos zero]
    · rw [if_pos zero, made]
  have inside := (hours_iff h.low).mp ⟨h.first, h.last⟩
  have inside' := (hours_iff wellDerived.low).mp ⟨wellDerived.first, wellDerived.last⟩
  have ordered : (if c.date = derived.date then c.time.compare derived.time
      else c.date.compare derived.date) =
      Ord.compare (c.date.number * 86400000 + c.time.total)
        (derived.date.number * 86400000 + derived.time.total) := by
    rw [← compare_parts inside inside', time_compare h.low wellDerived.low]
    by_cases date : c.date = derived.date
    · rw [if_pos date, if_pos (congrArg Date.number date)]
    · rw [if_neg date, date_compare h.date wellDerived.date date,
        if_neg fun number => date (Date.eq_of_number h.date wellDerived.date number)]
  rw [compare, found, Option.bind_eq_bind, Option.bind_some, ordered, ← same]
  unfold instant number
  rw [zone]
  congr 1
  rcases lt_trichotomy (c.date.number * 86400000 + c.time.total)
    (derived.date.number * 86400000 + derived.time.total) with less | equal | more
  · rw [compare_lt_iff_lt.mpr less, compare_lt_iff_lt.mpr (by omega)]
  · rw [compare_eq_iff_eq.mpr equal, compare_eq_iff_eq.mpr (by omega)]
  · rw [compare_gt_iff_gt.mpr more, compare_gt_iff_gt.mpr (by omega)]

theorem Sound.near (h : c.Sound) (first : -2 ^ 80 ≤ c.number) (last : c.number ≤ 2 ^ 80) :
    c.Near := by
  obtain ⟨m, s, ms⟩ := h.digits
  have hours := h.hours
  unfold number Time.total TimeEntity.total at first last
  unfold Near
  unfold Digit at *
  omega

theorem offset_bounds {z : TimeZone} (h : AbsInt z.total) : -2 ^ 63 < z.offset ∧ z.offset < 2 ^ 63 := by
  unfold AbsInt at h
  unfold TimeZone.offset
  split <;> omega

/-- A well-formed calendar is found, and it is so many milliseconds later. -/
def Moves (c : Calendar) (found : Option Calendar) (n : ℤ) : Prop :=
  ∃ c' e, found = some c' ∧ c'.WellFormed ∧ c.toEpoch false = some e ∧ c'.toEpoch false = some (e + n)

structure Faithful (c other : Calendar) (tz : TimeZone) (ms n seconds minutes hours : ℤ) : Prop where
  epoch : (epoch ms tz).bind (·.toEpoch false) = some ms
  addMilliseconds : c.Moves (c.addMilliseconds n) n
  addSeconds : c.Moves (c.addSeconds seconds) (1000 * seconds)
  addMinutes : c.Moves (c.addMinutes minutes) (60000 * minutes)
  addHours : c.Moves (c.addHours hours) (3600000 * hours)
  compare : ∃ e e', c.toEpoch false = some e ∧ other.toEpoch false = some e' ∧
    c.compare other = some (Ord.compare e e')

/-- The epochs of the calendars and the seconds between their time zones fit into 64 bits. -/
structure InRange (c other : Calendar) (tz : TimeZone) : Prop where
  zones : ∀ z ∈ [c.timezone, other.timezone, tz], AbsInt z.total ∧ Apart z utc ∧ Apart utc z
  apart : Apart other.timezone c.timezone
  epoch : IsInt c.instant
  other : IsInt other.instant

/-- The epochs to which one goes fit into 64 bits, the lowest number is not divided, and what is
added in milliseconds stays in the day or goes to a time that is not after 01:01:01. -/
structure Lands (c : Calendar) (ms n seconds minutes hours : ℤ) : Prop where
  epoch : ms ≠ -2 ^ 63
  milliseconds : IsInt (c.instant + n)
  divided : toInt64 (c.time.milliseconds + n) ≠ -2 ^ 63
  midnight : 0 ≤ c.time.total + goes c.time.milliseconds n ∨
    (c.time.total + goes c.time.milliseconds n) % 86400000 ≤ 3661000
  seconds : IsInt (c.instant + 1000 * seconds)
  minutes : IsInt (c.instant + 60000 * minutes)
  hours : IsInt (c.instant + 3600000 * hours)

theorem moves_iff {c' : Calendar} {n e e' : ℤ} {found : Option Calendar}
    (epoch : c.toEpoch false = some e) (made : found = some c')
    (epoch' : c'.toEpoch false = some e') : c.Moves found n ↔ c'.WellFormed ∧ e' = e + n := by
  constructor
  · intro moves
    obtain ⟨c'', e'', made', well, from', to'⟩ := moves
    rw [made, Option.some_inj] at made'
    rw [epoch, Option.some_inj] at from'
    rw [← made', epoch', Option.some_inj] at to'
    rw [made', from']
    exact ⟨well, to'⟩
  · intro there
    exact ⟨c', e, made, there.1, epoch, there.2 ▸ epoch'⟩

theorem epoch_toEpoch_iff {ms : ℤ} (inMs : IsInt ms) {tz : TimeZone}
    (zone : AbsInt tz.total ∧ Apart tz utc ∧ Apart utc tz) :
    (epoch ms tz).bind (·.toEpoch false) = some ms ↔ ms ≠ -2 ^ 63 := by
  obtain ⟨total, digits⟩ := Time.fromMilliseconds_spec ms
  have valid : (Date.mk 1970 .january 1).Valid := ⟨by decide, by decide⟩
  have day : (Date.mk 1970 .january 1).number = 719162 := rfl
  have made : Date.create 1970 1 1 = some ⟨1970, .january, 1⟩ := rfl
  obtain ⟨far, far', -, sum⟩ := goes_bounds (t := 0) (n := ms) le_rfl (by omega)
  rw [zero_add, inMs.toInt64_eq] at sum
  have small : Small (Time.fromMilliseconds ms).hours := by
    obtain ⟨m, s, ms⟩ := digits
    unfold Time.total TimeEntity.total at total
    unfold Small Digit at *
    omega
  obtain ⟨c, made', sound, -, zone', number, -⟩ := create_spec utc valid (by decide)
    (by rw [day]; decide) digits small
  have here : c.number = goes 0 ms := by
    rw [number, Calendar.number, day, total]
    omega
  have none : utc.offset = 0 := by decide
  obtain ⟨c', made'', sound', zone'', same, -⟩ := deriveTimeZone_spec sound
    (sound.near (by split_ifs at sum <;> omega) (by omega)) tz
    (zone'.symm ▸ ⟨by decide, by decide⟩) zone.1 (zone'.symm ▸ zone.2.2)
  have offset := offset_bounds zone.1
  have instant : c'.instant = goes 0 ms := by
    rw [same, Calendar.instant, zone', none, here]
    omega
  have near : c'.Near := by
    have whole : c'.number = goes 0 ms + 1000 * tz.offset := by
      rw [← instant, Calendar.instant, zone'']
      omega
    exact sound'.near (by omega) (by omega)
  have value : (epoch ms tz).bind (·.toEpoch false) = some (toInt64 (goes 0 ms)) := by
    rw [epoch, made, Option.bind_eq_bind, Option.bind_some]
    change ((create _ _ utc).bind _).bind _ = _
    rw [made', Option.bind_some, made'', Option.bind_some, ← instant]
    exact toEpoch_eq sound' near (zone''.symm ▸ zone.1) (zone''.symm ▸ zone.2.1)
  rw [value, Option.some_inj]
  have wrapped := toInt64_eq (goes 0 ms)
  unfold IsInt at inMs
  split_ifs at sum <;> omega

section Moves
variable (h : c.WellFormed) (inEpoch : IsInt c.instant)
  (zone : AbsInt c.timezone.total ∧ Apart c.timezone utc ∧ Apart utc c.timezone)
include h inEpoch zone

theorem near_toEpoch : c.Near ∧ c.toEpoch false = some c.instant := by
  have offset := offset_bounds zone.1
  have whole : c.number = c.instant + 1000 * c.timezone.offset := by
    rw [instant]
    omega
  have near : c.Near := by
    unfold IsInt at inEpoch
    exact h.sound.near (by omega) (by omega)
  have epoch := toEpoch_eq h.sound near zone.1 zone.2.1
  rw [inEpoch.toInt64_eq] at epoch
  exact ⟨near, epoch⟩

theorem moves_iff_toInt64 {found : Option Calendar} {c' : Calendar} {k k' : ℤ}
    (made : found = some c') (sound : c'.Sound) (same : c'.timezone = c.timezone)
    (moved : c'.number = c.number + k) (first : -2 ^ 64 ≤ k) (last : k ≤ 2 ^ 64) :
    c.Moves found k' ↔ c'.WellFormed ∧ toInt64 (c.instant + k) = c.instant + k' := by
  have there : c'.instant = c.instant + k := by
    rw [instant, instant, same, moved]
    omega
  have offset := offset_bounds zone.1
  have whole : c.number = c.instant + 1000 * c.timezone.offset := by
    rw [instant]
    omega
  have near : c'.Near := by
    unfold IsInt at inEpoch
    exact sound.near (by omega) (by omega)
  rw [← there]
  exact moves_iff (near_toEpoch h inEpoch zone).2 made
    (toEpoch_eq sound near (same.symm ▸ zone.1) (same.symm ▸ zone.2.1))

/-- Where the result of an addition that fits is well formed, it is found exactly then. -/
theorem moves_iff_isInt {found : Option Calendar} {k : ℤ}
    (spec : IsInt (c.instant + k) → ∃ c', found = some c' ∧ c'.WellFormed ∧
      c'.timezone = c.timezone ∧ c'.number = c.number + k) :
    c.Moves found k ↔ IsInt (c.instant + k) := by
  constructor
  · intro moves
    obtain ⟨c', e, -, -, from', to'⟩ := moves
    rw [(near_toEpoch h inEpoch zone).2, Option.some_inj] at from'
    rw [from']
    exact isInt_toEpoch to'
  · intro inInt
    obtain ⟨c', made, well, same, moved⟩ := spec inInt
    have fits := inInt
    unfold IsInt at fits inEpoch
    exact (moves_iff_toInt64 h inEpoch zone made well.sound same moved (by omega)
      (by omega)).mpr ⟨well, inInt.toInt64_eq⟩

end Moves

/-- Where the epochs fit, additions go where they should exactly where their results fit, but for
what is added in milliseconds, which must not end before the midnight that the day begins with,
or not after 01:01:01 then. -/
theorem faithful_iff {other : Calendar} {tz : TimeZone} (h : c.WellFormed) (h' : other.WellFormed)
    (range : InRange c other tz) {ms : ℤ} (inMs : IsInt ms) (n seconds minutes hours : ℤ) :
    c.Faithful other tz ms n seconds minutes hours ↔ c.Lands ms n seconds minutes hours := by
  have zone := range.zones c.timezone (by simp)
  have zone' := range.zones other.timezone (by simp)
  obtain ⟨near, epoch⟩ := near_toEpoch h range.epoch zone
  obtain ⟨near', epoch'⟩ := near_toEpoch h' range.other zone'
  have inEpoch := range.epoch
  unfold IsInt at inEpoch
  have digits := h.low.toDigits
  have first := h.first
  have last := h.last
  have movesSeconds : c.Moves (c.addSeconds seconds) (1000 * seconds) ↔ _ :=
    moves_iff_isInt h range.epoch zone fun inInt => addSeconds_spec h.sound near (by
      have digit := digits.seconds
      unfold IsInt Digit at *
      unfold AbsInt
      omega)
  have movesMinutes : c.Moves (c.addMinutes minutes) (60000 * minutes) ↔ _ :=
    moves_iff_isInt h range.epoch zone fun inInt => addMinutes_spec h.sound near (by
      have digit := digits.minutes
      unfold IsInt Digit at *
      unfold AbsInt
      omega)
  have movesHours : c.Moves (c.addHours hours) (3600000 * hours) ↔ _ :=
    moves_iff_isInt h range.epoch zone fun inInt => addHours_spec h.date h.year near h.low (by
      unfold IsInt at *
      unfold AbsInt
      omega)
  obtain ⟨c', made, sound, same, moved, well⟩ := addMilliseconds_spec h near n
  obtain ⟨far, far', -, sum⟩ := goes_bounds (n := n) digits.milliseconds.1 h.low.milliseconds_lt
  have movesMilliseconds : c.Moves (c.addMilliseconds n) n ↔ c'.WellFormed ∧
      toInt64 (c.instant + goes c.time.milliseconds n) = c.instant + n :=
    moves_iff_toInt64 h range.epoch zone made sound same moved (by omega) (by omega)
  have cut := toInt64_eq (c.time.milliseconds + n)
  have cut' := toInt64_eq (c.instant + goes c.time.milliseconds n)
  constructor
  · intro faithful
    obtain ⟨well', there⟩ := movesMilliseconds.mp faithful.addMilliseconds
    have divided : toInt64 (c.time.milliseconds + n) ≠ -2 ^ 63 := by
      intro lowest
      rw [if_pos lowest] at sum
      omega
    exact ⟨(epoch_toEpoch_iff inMs (range.zones tz (by simp))).mp faithful.epoch,
      there ▸ isInt_toInt64 _, divided, (well divided).mp well',
      movesSeconds.mp faithful.addSeconds, movesMinutes.mp faithful.addMinutes,
      movesHours.mp faithful.addHours⟩
  · intro lands
    have fits := lands.milliseconds
    unfold IsInt at fits
    rw [if_neg lands.divided] at sum
    exact ⟨(epoch_toEpoch_iff inMs (range.zones tz (by simp))).mpr lands.epoch,
      movesMilliseconds.mpr ⟨(well lands.divided).mpr lands.midnight, by omega⟩,
      movesSeconds.mpr lands.seconds, movesMinutes.mpr lands.minutes, movesHours.mpr lands.hours,
      _, _, epoch, epoch', compare_eq h h' near' zone.1 zone'.1 range.apart⟩

def midnight : Calendar := ⟨⟨2024, .march, 10⟩, ⟨⟨0, 0, 0⟩, 0⟩, utc⟩

theorem midnight_wellFormed : midnight.WellFormed :=
  ⟨⟨by decide, by decide⟩, by decide, by decide, by decide, ⟨⟨by decide, by decide⟩,
    ⟨by decide, by decide⟩, by decide, by decide⟩, by decide, by decide, by decide⟩

theorem midnight_inRange : InRange midnight midnight (TimeZone.create true 3 30 0) := by
  refine ⟨fun z hz => ?_, ⟨by decide, by decide⟩, by decide, by decide⟩
  simp only [List.mem_cons, List.not_mem_nil, or_false] at hz
  rcases hz with rfl | rfl | rfl <;>
    exact ⟨⟨by decide, by decide⟩, ⟨by decide, by decide⟩, ⟨by decide, by decide⟩⟩

theorem faithful_iff_midnight :
    midnight.Faithful midnight (TimeZone.create true 3 30 0) (-1) (-86400000) (-1) 59 (-100) :=
  (faithful_iff midnight_wellFormed midnight_wellFormed midnight_inRange (by decide) _ _ _ _).mpr
    ⟨by decide, by decide, by decide, .inr (by decide), by decide, by decide, by decide⟩

/-- A millisecond before midnight is an hour below zero of the same day. -/
theorem not_faithful_midnight :
    midnight.WellFormed ∧ ¬midnight.Faithful midnight utc 0 (-1) 0 0 0 := by
  refine ⟨midnight_wellFormed, fun faithful => ?_⟩
  obtain ⟨c', -, found, well, -, -⟩ := faithful.addMilliseconds
  have hours : (midnight.addMilliseconds (-1)).map (·.time.hours) = some (-1) := by decide
  rw [found, Option.map_some, Option.some_inj] at hours
  have first := well.first
  omega

end Calendar

end SkipPlatform.SKDate
