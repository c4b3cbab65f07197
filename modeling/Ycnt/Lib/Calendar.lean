import Mathlib.Algebra.BigOperators.Group.List.Basic
import Mathlib.Tactic.IntervalCases
/-!
# The Gregorian calendar

`Date.ofDays` is the date of a day, counted from 1970-01-01, `Date.toDays` the day
of a date. A `Date` is one that the calendar has.
-/

namespace Calendar

def IsLeap (year : Int) : Prop := year % 4 = 0 ∧ (year % 100 ≠ 0 ∨ year % 400 = 0)

instance : DecidablePred IsLeap := fun _ => instDecidableAnd

def daysInMonth (year month : Int) : Int :=
  if month = 2 then if IsLeap year then 29 else 28
  else if month = 4 ∨ month = 6 ∨ month = 9 ∨ month = 11 then 30
  else 31

/-- The days of the year before the first of the month. -/
def daysBeforeMonth (year month : Int) : Int :=
  ((List.range (month - 1).toNat).map fun i => daysInMonth year (i + 1)).sum

/-- The days from 0001-01-01 to the first of the year. -/
def daysBeforeYear (year : Int) : Int := 365 * (year - 1) + (year - 1) / 4 - (year - 1) / 100 + (year - 1) / 400

structure Date where
  year : Int
  month : Int
  day : Int
  month_mem : 1 ≤ month ∧ month ≤ 12
  day_mem : 1 ≤ day ∧ day ≤ daysInMonth year month

/-- 1970-01-01 is day 0. -/
def Date.toDays (d : Date) : Int := daysBeforeYear d.year + daysBeforeMonth d.year d.month + (d.day - 1) - 719162

theorem daysBeforeMonth_eq (year : Int) {month : Int} (h : 1 ≤ month ∧ month ≤ 12) :
    daysBeforeMonth year month =
      if month ≤ 2 then 31 * (month - 1) else (153 * (month - 3) + 2) / 5 + if IsLeap year then 60 else 59 := by
  obtain ⟨h1, h12⟩ := h
  by_cases hl : IsLeap year
  · interval_cases month <;> simp [daysBeforeMonth, daysInMonth, hl, List.range_succ]
  · interval_cases month <;> simp [daysBeforeMonth, daysInMonth, hl, List.range_succ]

/-! ## Years from March to February

A leap day is then the last day of its year, and the months have 153 days in each
five. -/

/-- A day by the cycles of 400, 100, 4 and 1 years it lies in. -/
structure Cycles where
  era : Int
  century : Int
  quad : Int
  year : Int
  day : Int
  century_mem : 0 ≤ century ∧ century ≤ 3
  quad_mem : 0 ≤ quad ∧ quad ≤ 24
  year_mem : 0 ≤ year ∧ year ≤ 3
  day_mem : 0 ≤ day ∧ day ≤ 365
  leap_day : day = 365 → year = 3 ∧ (quad = 24 → century = 3)

namespace Cycles

/-- The last cycle of 100 years in one of 400, and the last year in one of 4, have a day more. -/
def ofDays (days : Int) : Cycles :=
  let era := days / 146097
  let century := min (days % 146097 / 36524) 3
  let inCentury := days % 146097 - 36524 * century
  let quad := inCentury / 1461
  let year := min (inCentury % 1461 / 365) 3
  { era, century, quad, year
    day := inCentury % 1461 - 365 * year
    century_mem := by omega
    quad_mem := by omega
    year_mem := by omega
    day_mem := by omega
    leap_day := by omega }

def toDays (c : Cycles) : Int := 146097 * c.era + 36524 * c.century + 1461 * c.quad + 365 * c.year + c.day

theorem toDays_ofDays (days : Int) : (ofDays days).toDays = days := by
  simp only [toDays, ofDays]
  omega

variable (c : Cycles)

/-- The year in which the cycles' year begins. -/
def startYear : Int := 400 * c.era + 100 * c.century + 4 * c.quad + c.year

/-- From 0 for March to 11 for February. -/
def marchMonth : Int := (5 * c.day + 2) / 153

theorem isLeap_next : IsLeap (c.startYear + 1) ↔ c.year = 3 ∧ (c.quad = 24 → c.century = 3) := by
  obtain ⟨hc, hc'⟩ := c.century_mem
  obtain ⟨hq, hq'⟩ := c.quad_mem
  obtain ⟨hy, hy'⟩ := c.year_mem
  unfold IsLeap startYear
  omega

theorem marchMonth_mem : 0 ≤ c.marchMonth ∧ c.marchMonth ≤ 11 := by
  have := c.day_mem
  unfold marchMonth
  omega

/-- The day of the month. -/
def dayOfMonth : Int := c.day - (153 * c.marchMonth + 2) / 5 + 1

theorem dayOfMonth_mem {year month : Int} (hm : month = if c.marchMonth ≤ 9 then c.marchMonth + 3 else c.marchMonth - 9)
    (hy : year = if c.marchMonth ≤ 9 then c.startYear else c.startYear + 1) :
    1 ≤ c.dayOfMonth ∧ c.dayOfMonth ≤ daysInMonth year month := by
  obtain ⟨h0, h11⟩ := c.marchMonth_mem
  have hd := c.day_mem
  by_cases hf : c.marchMonth = 11
  · -- February has its 29th day only where the cycles have a day 365.
    rw [if_neg (by omega)] at hm hy
    have h365 : ¬ IsLeap year → c.day ≠ 365 := fun hn h => hn (hy ▸ c.isLeap_next.2 (c.leap_day h))
    have hm2 : month = 2 := by omega
    rw [daysInMonth, if_pos hm2, dayOfMonth, hf]
    unfold marchMonth at hf
    by_cases hl : IsLeap year
    · rw [if_pos hl]
      omega
    · have := h365 hl
      rw [if_neg hl]
      omega
  · have hlen : 30 ≤ daysInMonth year month ∧
        (¬ (month = 4 ∨ month = 6 ∨ month = 9 ∨ month = 11) → daysInMonth year month = 31) := by
      rw [daysInMonth, if_neg (by split at hm <;> omega)]
      split <;> omega
    unfold dayOfMonth
    unfold marchMonth at *
    split at hm <;> omega

/-- The date of the day. -/
def date : Date where
  year := if c.marchMonth ≤ 9 then c.startYear else c.startYear + 1
  month := if c.marchMonth ≤ 9 then c.marchMonth + 3 else c.marchMonth - 9
  day := c.dayOfMonth
  month_mem := by
    have := c.marchMonth_mem
    split <;> omega
  day_mem := c.dayOfMonth_mem rfl rfl

/-- The first of January after the cycles' year has begun. -/
theorem daysBeforeYear_next : daysBeforeYear (c.startYear + 1) = c.toDays - c.day := by
  obtain ⟨hc, hc'⟩ := c.century_mem
  obtain ⟨hq, hq'⟩ := c.quad_mem
  obtain ⟨hy, hy'⟩ := c.year_mem
  unfold daysBeforeYear startYear toDays
  omega

/-- The days of a year. -/
theorem daysBeforeYear_succ (year : Int) :
    daysBeforeYear (year + 1) = daysBeforeYear year + if IsLeap year then 366 else 365 := by
  unfold daysBeforeYear
  by_cases hl : IsLeap year
  · rw [if_pos hl]
    unfold IsLeap at hl
    omega
  · rw [if_neg hl]
    unfold IsLeap at hl
    omega

theorem date_year : c.date.year = if c.marchMonth ≤ 9 then c.startYear else c.startYear + 1 := rfl

theorem toDays_date : c.date.toDays = c.toDays - 719468 := by
  obtain ⟨h0, h11⟩ := c.marchMonth_mem
  have hnext := c.daysBeforeYear_next
  rw [Date.toDays, daysBeforeMonth_eq _ c.date.month_mem]
  simp only [date, dayOfMonth]
  by_cases hm : c.marchMonth ≤ 9
  · have hsucc := daysBeforeYear_succ c.startYear
    simp only [if_pos hm, if_neg (show ¬ c.marchMonth + 3 ≤ 2 by omega)]
    by_cases hl : IsLeap c.startYear
    · rw [if_pos hl] at *
      omega
    · rw [if_neg hl] at *
      omega
  · simp only [if_neg hm, if_pos (show c.marchMonth - 9 ≤ 2 by omega)]
    omega

end Cycles

namespace Date

def ofDays (days : Int) : Date := (Cycles.ofDays (days + 719468)).date

theorem toDays_ofDays (days : Int) : (ofDays days).toDays = days := by
  rw [ofDays, Cycles.toDays_date, Cycles.toDays_ofDays]
  omega

theorem year_le {days : Int} (h : 0 ≤ days) : 1970 ≤ (ofDays days).year ∧ (ofDays days).year ≤ days / 365 + 1972 := by
  have hdays := Cycles.toDays_ofDays (days + 719468)
  obtain ⟨hc, hc'⟩ := (Cycles.ofDays (days + 719468)).century_mem
  obtain ⟨hq, hq'⟩ := (Cycles.ofDays (days + 719468)).quad_mem
  obtain ⟨hy, hy'⟩ := (Cycles.ofDays (days + 719468)).year_mem
  obtain ⟨hd, hd'⟩ := (Cycles.ofDays (days + 719468)).day_mem
  rw [ofDays, Cycles.date_year]
  unfold Cycles.toDays at hdays
  unfold Cycles.startYear Cycles.marchMonth
  split <;> omega

/-- A cycle of 400 years has 146097 days. -/
theorem year_mem (days : Int) : 400 * ((days + 719468) / 146097) ≤ (ofDays days).year ∧
    (ofDays days).year ≤ 400 * ((days + 719468) / 146097) + 400 := by
  obtain ⟨hc, hc'⟩ := (Cycles.ofDays (days + 719468)).century_mem
  obtain ⟨hq, hq'⟩ := (Cycles.ofDays (days + 719468)).quad_mem
  obtain ⟨hy, hy'⟩ := (Cycles.ofDays (days + 719468)).year_mem
  have hera : (Cycles.ofDays (days + 719468)).era = (days + 719468) / 146097 := rfl
  rw [ofDays, Cycles.date_year]
  unfold Cycles.startYear
  split <;> omega

end Date

/-! ## Earlier and later -/

namespace Date

variable {d d' : Date}

/-- By year, month and day. -/
def Before (d d' : Date) : Prop :=
  d.year < d'.year ∨ (d.year = d'.year ∧ (d.month < d'.month ∨ (d.month = d'.month ∧ d.day < d'.day)))

/-- A month ends before a later month of its year begins. -/
theorem daysBeforeMonth_add_le (year : Int) {month month' : Int} (h : 1 ≤ month) (hlt : month < month')
    (h' : month' ≤ 12) : daysBeforeMonth year month + daysInMonth year month ≤ daysBeforeMonth year month' := by
  have hle : month ≤ 11 := by omega
  rw [daysBeforeMonth_eq year ⟨h, by omega⟩, daysBeforeMonth_eq year ⟨by omega, h'⟩, daysInMonth]
  by_cases hl : IsLeap year
  · simp only [if_pos hl]
    interval_cases month <;> omega
  · simp only [if_neg hl]
    interval_cases month <;> omega

/-- A month ends with its year at the latest. -/
theorem daysBeforeMonth_le (year : Int) {month : Int} (h : 1 ≤ month ∧ month ≤ 12) :
    0 ≤ daysBeforeMonth year month ∧
      daysBeforeMonth year month + daysInMonth year month ≤ if IsLeap year then 366 else 365 := by
  rw [daysBeforeMonth_eq year h, daysInMonth]
  by_cases hl : IsLeap year
  · simp only [if_pos hl]
    omega
  · simp only [if_neg hl]
    omega

theorem toDays_lt (h : d.Before d') : d.toDays < d'.toDays := by
  have hday := d.day_mem
  have hday' := d'.day_mem
  have hmonth := d.month_mem
  have hmonth' := d'.month_mem
  unfold toDays
  rcases h with hy | ⟨hy, hm | ⟨hm, hd⟩⟩
  · have hend := (daysBeforeMonth_le d.year hmonth).2
    have hbegin := (daysBeforeMonth_le d'.year hmonth').1
    have hsucc := Cycles.daysBeforeYear_succ d.year
    have hmono : daysBeforeYear (d.year + 1) ≤ daysBeforeYear d'.year := by
      unfold daysBeforeYear
      omega
    omega
  · have := daysBeforeMonth_add_le d.year hmonth.1 hm hmonth'.2
    rw [← hy]
    omega
  · rw [← hy, ← hm]
    omega

theorem toDays_lt_iff : d.toDays < d'.toDays ↔ d.Before d' := by
  refine ⟨fun h => ?_, toDays_lt⟩
  by_contra hn
  have hback : ¬ d'.Before d := fun hb => by
    have := toDays_lt hb
    omega
  unfold Before at hn hback
  have heq : d.year = d'.year ∧ d.month = d'.month ∧ d.day = d'.day := by omega
  obtain ⟨hy, hm, hd⟩ := heq
  rw [toDays, toDays, hy, hm, hd] at h
  omega

end Date

/-! ## The time of day -/

/-- A second of UTC. -/
structure DateTime extends Date where
  hour : Int
  minute : Int
  second : Int
  hour_mem : 0 ≤ hour ∧ hour < 24
  minute_mem : 0 ≤ minute ∧ minute < 60
  second_mem : 0 ≤ second ∧ second < 60

namespace DateTime

def toSeconds (d : DateTime) : Int := d.toDays * 86400 + d.hour * 3600 + d.minute * 60 + d.second

/-- Seconds count from the beginning of 1970-01-01. -/
def ofSeconds (seconds : Int) : DateTime :=
  { Date.ofDays (seconds / 86400) with
    hour := seconds % 86400 / 3600
    minute := seconds % 3600 / 60
    second := seconds % 60
    hour_mem := by omega
    minute_mem := by omega
    second_mem := by omega }

theorem toSeconds_ofSeconds (seconds : Int) : (ofSeconds seconds).toSeconds = seconds := by
  have hdays : (ofSeconds seconds).toDays = seconds / 86400 := Date.toDays_ofDays _
  rw [toSeconds, hdays]
  simp only [ofSeconds]
  omega

/-- By the date, then by the time of day. -/
def Before (d d' : DateTime) : Prop :=
  d.toDate.Before d'.toDate ∨ (d.toDays = d'.toDays ∧ (d.hour < d'.hour ∨ (d.hour = d'.hour ∧
    (d.minute < d'.minute ∨ (d.minute = d'.minute ∧ d.second < d'.second)))))

theorem toSeconds_lt_iff {d d' : DateTime} : d.toSeconds < d'.toSeconds ↔ d.Before d' := by
  have hh := d.hour_mem
  have hm := d.minute_mem
  have hs := d.second_mem
  have hh' := d'.hour_mem
  have hm' := d'.minute_mem
  have hs' := d'.second_mem
  rw [Before, ← Date.toDays_lt_iff, toSeconds, toSeconds]
  omega

/-- The years of four digits end before second 253402300800. -/
theorem year_lt {d : DateTime} (h : d.toSeconds < 253402300800) : d.year < 10000 := by
  have hday := d.day_mem
  have hbegin := (Date.daysBeforeMonth_le d.year d.month_mem).1
  have hh := d.hour_mem
  have hm := d.minute_mem
  have hs := d.second_mem
  unfold toSeconds Date.toDays daysBeforeYear at h
  omega

-- 2024-02-29 23:59:59
example : (ofSeconds 1709251199).year = 2024 ∧ (ofSeconds 1709251199).month = 2 ∧ (ofSeconds 1709251199).day = 29 ∧
    (ofSeconds 1709251199).hour = 23 := by decide +kernel

end DateTime

end Calendar
