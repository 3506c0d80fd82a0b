import Mathlib.Algebra.Order.Group.Int
import Mathlib.Tactic.IntervalCases

set_option autoImplicit false

/- The Gregorian calendar: days since 1970-01-01, which may be before it, as a year and the day
in it, and as a month and the day in that. -/
namespace Calendar

def isLeap (year : Int) : Bool := year % 4 = 0 && (year % 100 ≠ 0 || year % 400 = 0)

def yearLength (year : Int) : Int := if isLeap year then 366 else 365

/-- The first of January of a year. Up to 1969 there were 477 leap days. -/
def daysBeforeYear (year : Int) : Int :=
  365 * (year - 1970) + ((year - 1) / 4 - (year - 1) / 100 + (year - 1) / 400 - 477)

/-- The year of a day, by the cycles of 400, 100, 4 and one years it is in. The last day of a
cycle is no cycle of its own. -/
def yearOf (days : Int) : Int :=
  let n400 := (days + 719162) / 146097
  let inCycle := (days + 719162) % 146097
  let n100 := min (inCycle / 36524) 3
  let inCentury := inCycle - 36524 * n100
  let n4 := inCentury / 1461
  let inOlympiad := inCentury % 1461
  let n1 := min (inOlympiad / 365) 3
  400 * n400 + 100 * n100 + 4 * n4 + n1 + 1

def dayOfYear (days : Int) : Int := days - daysBeforeYear (yearOf days)

/-- Days of years in the cycles they are in. -/
theorem daysBeforeYear_cycles {a b c d : Int} (century : 0 ≤ b ∧ b ≤ 3) (olympiad : 0 ≤ c ∧ c ≤ 24)
    (inside : 0 ≤ d ∧ d ≤ 3) :
    daysBeforeYear (400 * a + 100 * b + 4 * c + d + 1) = 146097 * a + 36524 * b + 1461 * c + 365 * d - 719162 := by
  rw [daysBeforeYear]
  omega

/-- The cycles of a day, which are what its year is made of. -/
structure Cycles (days a b c d rest : Int) : Prop where
  century : 0 ≤ b ∧ b ≤ 3
  olympiad : 0 ≤ c ∧ c ≤ 24
  inside : 0 ≤ d ∧ d ≤ 3
  total : days + 719162 = 146097 * a + 36524 * b + 1461 * c + 365 * d + rest
  year : yearOf days = 400 * a + 100 * b + 4 * c + d + 1
  nonneg : 0 ≤ rest
  /-- A last year of four is longer by a day, except at the end of a century. -/
  short : rest < 365 ∨ rest = 365 ∧ d = 3 ∧ (c < 24 ∨ b = 3)

theorem cycles (days : Int) : ∃ a b c d rest, Cycles days a b c d rest := by
  set a := (days + 719162) / 146097 with a_eq
  set r := (days + 719162) % 146097 with r_eq
  set b := min (r / 36524) 3 with b_eq
  set s := r - 36524 * b with s_eq
  set c := s / 1461 with c_eq
  set u := s % 1461 with u_eq
  set d := min (u / 365) 3 with d_eq
  refine ⟨a, b, c, d, u - 365 * d, ?_, ?_, ?_, ?_, ?_, ?_, ?_⟩
  · omega
  · omega
  · omega
  · omega
  · rfl
  · omega
  · omega

/-- Every day is in its year. -/
theorem dayOfYear_bounds (days : Int) : 0 ≤ dayOfYear days ∧ dayOfYear days < yearLength (yearOf days) := by
  obtain ⟨a, b, c, d, rest, century, olympiad, inside, total, year, nonneg, short⟩ := cycles days
  have start := @daysBeforeYear_cycles a b c d century olympiad inside
  rw [dayOfYear, year, start]
  have leap (lastOf : d = 3) (long : c < 24 ∨ b = 3) : isLeap (400 * a + 100 * b + 4 * c + d + 1) = true := by
    simp only [isLeap, Bool.and_eq_true, Bool.or_eq_true, decide_eq_true_eq]
    omega
  rw [yearLength]
  split
  next => omega
  next common =>
      have within : rest < 365 := short.resolve_right fun ⟨_, lastOf, long⟩ => common (leap lastOf long)
      omega

/-- The days before each month, counted from 0, and those of the whole year. -/
def monthStarts (leap : Bool) : List Int :=
  if leap then [0, 31, 60, 91, 121, 152, 182, 213, 244, 274, 305, 335, 366]
  else [0, 31, 59, 90, 120, 151, 181, 212, 243, 273, 304, 334, 365]

def daysBeforeMonth (leap : Bool) (month : Nat) : Int := (monthStarts leap).getD month 0

/-- The last of the months up to this one that has begun. -/
def lastMonth (leap : Bool) (day : Int) : Nat → Nat
  | 0 => 0
  | month + 1 => if day < daysBeforeMonth leap (month + 1) then lastMonth leap day month else month + 1

def monthOf (leap : Bool) (day : Int) : Nat := lastMonth leap day 11

theorem lastMonth_bounds {leap : Bool} {day : Int} (nonneg : 0 ≤ day) {month : Nat}
    (before : day < daysBeforeMonth leap (month + 1)) :
    lastMonth leap day month ≤ month ∧ daysBeforeMonth leap (lastMonth leap day month) ≤ day ∧
      day < daysBeforeMonth leap (lastMonth leap day month + 1) := by
  induction month with
  | zero =>
      refine ⟨le_rfl, ?_, before⟩
      cases leap <;> exact nonneg
  | succ month ih =>
      rw [lastMonth]
      split
      next earlier =>
          obtain ⟨le, begun, ended⟩ := ih earlier
          exact ⟨le.trans (Nat.le_succ _), begun, ended⟩
      next begun => exact ⟨le_rfl, Int.not_lt.mp begun, before⟩

theorem monthOf_bounds {year day : Int} (nonneg : 0 ≤ day) (inside : day < yearLength year) :
    monthOf (isLeap year) day ≤ 11 ∧ daysBeforeMonth (isLeap year) (monthOf (isLeap year) day) ≤ day ∧
      day < daysBeforeMonth (isLeap year) (monthOf (isLeap year) day + 1) := by
  refine lastMonth_bounds nonneg ?_
  rw [yearLength] at inside
  cases leap : isLeap year with
  | true => rwa [leap] at inside
  | false => rwa [leap] at inside

/-- No month is longer than 31 days. -/
theorem daysBeforeMonth_succ_le (leap : Bool) {month : Nat} (inYear : month ≤ 11) :
    daysBeforeMonth leap (month + 1) ≤ daysBeforeMonth leap month + 31 := by
  cases leap <;> interval_cases month <;> decide

end Calendar
