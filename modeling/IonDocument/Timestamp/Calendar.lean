/-! # The proleptic calendar

Days are counted from 1970-01-01 and dates have years of any sign, with a year 0. A year is
taken to begin in March, so that the leap day comes last: 400 years have 146097 days, each
century of them 36524, each four years of a century 1461 and each year 365, and the leap days
are what is left over at the end of each span.
-/
namespace IonDocument

structure Date where
  year : Int
  month : Nat
  day : Nat
  deriving DecidableEq

namespace Date

/-- Days from 0000-03-01 to 1970-01-01. -/
def epoch : Int := 719468

/-- The century of a day in 400 years. Only the last one has a leap day at its end. -/
def century (n : Nat) : Nat := min (n / 36524) 3

/-- The year of a day in four years. Only the last one has a leap day at its end. -/
def yearOfFour (n : Nat) : Nat := min (n / 365) 3

def yearOfCentury (n : Nat) : Nat := n / 1461 * 4 + yearOfFour (n % 1461)

def dayOfCentury (n : Nat) : Nat := n % 1461 - yearOfFour (n % 1461) * 365

def yearOfSpan (n : Nat) : Nat := century n * 100 + yearOfCentury (n - century n * 36524)

def dayOfSpan (n : Nat) : Nat := dayOfCentury (n - century n * 36524)

/-- The first day of a month, both counted from 0 at the beginning of March. -/
def monthStart (month : Nat) : Nat := (153 * month + 2) / 5

def monthOfDay (day : Nat) : Nat := (5 * day + 2) / 153

/-- The date of a day of a year that begins in March. -/
def ofMarch (year : Int) (day : Nat) : Date :=
  let m := monthOfDay day
  if m < 10 then ⟨year, m + 3, day - monthStart m + 1⟩
  else ⟨year + 1, m - 9, day - monthStart m + 1⟩

def ofDays (days : Int) : Date :=
  let n := days + epoch
  let d := (n % 146097).toNat
  ofMarch (n / 146097 * 400 + yearOfSpan d) (dayOfSpan d)

/-- The year of a date when years begin in March. -/
def marchYear (date : Date) : Int := if 2 < date.month then date.year else date.year - 1

def marchDay (date : Date) : Nat :=
  (if 2 < date.month then monthStart (date.month - 3) else monthStart (date.month + 9))
    + (date.day - 1)

def toDays (date : Date) : Int :=
  let y := (date.marchYear % 400).toNat
  date.marchYear / 400 * 146097 + y * 365 + (y / 4 : Nat) - (y / 100 : Nat) + date.marchDay - epoch

theorem century_bound {n : Nat} (h : n < 146097) :
    century n ≤ 3 ∧ century n * 36524 ≤ n ∧ n - century n * 36524 < 36525 := by
  unfold century
  omega

theorem yearOfFour_bound {n : Nat} (h : n < 1461) :
    yearOfFour n ≤ 3 ∧ yearOfFour n * 365 ≤ n ∧ n - yearOfFour n * 365 < 366 := by
  unfold yearOfFour
  omega

theorem century_count {n : Nat} (h : n < 36525) :
    yearOfCentury n < 100 ∧ dayOfCentury n < 366 ∧
      yearOfCentury n * 365 + yearOfCentury n / 4 + dayOfCentury n = n := by
  have hb := yearOfFour_bound (Nat.mod_lt n (by decide : 0 < 1461))
  unfold yearOfCentury dayOfCentury
  omega

/-- The year and the day in it count the days of the span. -/
theorem span_count {n : Nat} (h : n < 146097) :
    yearOfSpan n < 400 ∧ dayOfSpan n < 366 ∧
      yearOfSpan n * 365 + yearOfSpan n / 4 + dayOfSpan n = n + yearOfSpan n / 100 := by
  obtain ⟨hc, hle, hlt⟩ := century_bound h
  obtain ⟨hy, hd, hcount⟩ := century_count hlt
  unfold yearOfSpan dayOfSpan
  have h100 : (century n * 100 + yearOfCentury (n - century n * 36524)) / 100 = century n := by
    omega
  have h4 : (century n * 100 + yearOfCentury (n - century n * 36524)) / 4 =
      century n * 25 + yearOfCentury (n - century n * 36524) / 4 := by
    omega
  rw [h100, h4]
  omega

theorem monthOfDay_bound {d : Nat} (h : d < 366) :
    monthOfDay d < 12 ∧ monthStart (monthOfDay d) ≤ d := by
  unfold monthOfDay monthStart
  omega

theorem marchYear_ofMarch (year : Int) {day : Nat} (h : day < 366) :
    (ofMarch year day).marchYear = year := by
  have hm := (monthOfDay_bound h).1
  by_cases hl : monthOfDay day < 10
  · simp [ofMarch, marchYear, hl]
  · have h2 : ¬ 2 < monthOfDay day - 9 := by omega
    simp [ofMarch, marchYear, hl, h2]

theorem marchDay_ofMarch (year : Int) {day : Nat} (h : day < 366) :
    (ofMarch year day).marchDay = day := by
  obtain ⟨hm, hs⟩ := monthOfDay_bound h
  by_cases hl : monthOfDay day < 10
  · simp [ofMarch, marchDay, hl]
    omega
  · have h2 : ¬ 2 < monthOfDay day - 9 := by omega
    have hb : monthOfDay day - 9 + 9 = monthOfDay day := by omega
    simp [ofMarch, marchDay, hl, h2, hb]
    omega

/-- A date gives its day back. -/
theorem toDays_ofDays (days : Int) : (ofDays days).toDays = days := by
  have hlt : ((days + epoch) % 146097).toNat < 146097 := by omega
  obtain ⟨hy, hd, hcount⟩ := span_count hlt
  unfold ofDays toDays
  simp only [marchYear_ofMarch _ hd, marchDay_ofMarch _ hd]
  generalize yearOfSpan ((days + epoch) % 146097).toNat = y at *
  generalize dayOfSpan ((days + epoch) % 146097).toNat = d at *
  have hmod : (((days + epoch) / 146097 * 400 + (y : Int)) % 400).toNat = y := by omega
  have hdiv : ((days + epoch) / 146097 * 400 + (y : Int)) / 400 = (days + epoch) / 146097 := by
    omega
  rw [hmod, hdiv]
  omega

end Date
end IonDocument
