import Mathlib.Data.Int.Order.Basic
import Mathlib.Tactic.IntervalCases

/-!
# The Gregorian calendar on day numbers

Days are counted from 1 January of the year 0, and months from January of that year. Years,
months and days of a month are read off a day number, and a day number is found from them.
-/
namespace Civil

/-! ## Years -/

def isLeap (y : Int) : Bool := y % 4 == 0 && (y % 100 != 0 || y % 400 == 0)

/-- The day number of 1 January. -/
def yearStart (y : Int) : Int := 365 * y + (y + 3) / 4 - (y + 99) / 100 + (y + 399) / 400

def yearLength (leap : Bool) : Int := if leap then 366 else 365

theorem isLeap_iff (y : Int) : isLeap y = true ↔ y % 4 = 0 ∧ (y % 100 ≠ 0 ∨ y % 400 = 0) := by
  simp [isLeap]

theorem yearStart_succ (y : Int) : yearStart (y + 1) = yearStart y + yearLength (isLeap y) := by
  have hleap := isLeap_iff y
  unfold yearStart yearLength
  split
  next h =>
    have hy := hleap.mp h
    omega
  next h =>
    have hy : ¬(y % 4 = 0 ∧ (y % 100 ≠ 0 ∨ y % 400 = 0)) := fun hy => h (hleap.mpr hy)
    omega

theorem yearStart_le {a b : Int} (h : a ≤ b) : yearStart a ≤ yearStart b := by
  unfold yearStart
  omega

/-- The year of a day: the mean length of a year misses it by at most one. -/
def yearOf (n : Int) : Int :=
  let y := 400 * n / 146097
  if n < yearStart y then y - 1 else if yearStart (y + 1) ≤ n then y + 1 else y

theorem yearOf_spec (n : Int) : yearStart (yearOf n) ≤ n ∧ n < yearStart (yearOf n + 1) := by
  unfold yearOf
  dsimp only
  split
  next h =>
    rw [Int.sub_add_cancel]
    refine ⟨?_, h⟩
    unfold yearStart
    omega
  next h =>
    split
    next h' =>
      refine ⟨h', ?_⟩
      unfold yearStart
      omega
    next h' => omega

/-! ## Months -/

/-- The days of a year before a month. -/
def monthStart (leap : Bool) (m : Nat) : Int :=
  let extra := if leap && 2 < m then 1 else 0
  extra + match m with
    | 1 => 0
    | 2 => 31
    | 3 => 59
    | 4 => 90
    | 5 => 120
    | 6 => 151
    | 7 => 181
    | 8 => 212
    | 9 => 243
    | 10 => 273
    | 11 => 304
    | _ => 334

def monthLength (leap : Bool) (m : Nat) : Int :=
  match m with
  | 2 => if leap then 29 else 28
  | 4 | 6 | 9 | 11 => 30
  | _ => 31

theorem monthStart_succ (leap : Bool) (m : Nat) (hlow : 1 ≤ m) (hhigh : m < 12) :
    monthStart leap (m + 1) = monthStart leap m + monthLength leap m := by
  cases leap <;> interval_cases m <;> rfl

theorem yearLength_eq (leap : Bool) : yearLength leap = monthStart leap 12 + monthLength leap 12 := by
  cases leap <;> rfl

theorem monthLength_pos (leap : Bool) (m : Nat) : 28 ≤ monthLength leap m ∧ monthLength leap m ≤ 31 := by
  unfold monthLength
  split
  · split <;> omega
  all_goals omega

/-- The last month, from the given one down, that starts by a day of the year. -/
def lastMonth (leap : Bool) (r : Int) : Nat → Nat
  | 0 => 1
  | m + 1 => if monthStart leap (m + 2) ≤ r then m + 2 else lastMonth leap r m

/-- The month of a day of a year, the days counted from 0. -/
def monthOfDay (leap : Bool) (r : Int) : Nat := lastMonth leap r 11

theorem lastMonth_spec {leap : Bool} {r : Int} (hlow : 0 ≤ r) (m : Nat) (hm : m ≤ 11)
    (hhigh : r < monthStart leap (m + 1) + monthLength leap (m + 1)) :
    1 ≤ lastMonth leap r m ∧ lastMonth leap r m ≤ m + 1 ∧ monthStart leap (lastMonth leap r m) ≤ r ∧
      r < monthStart leap (lastMonth leap r m) + monthLength leap (lastMonth leap r m) := by
  induction m with
  | zero =>
    have hjanuary : monthStart leap 1 = 0 := by cases leap <;> rfl
    exact ⟨le_rfl, le_rfl, hjanuary ▸ hlow, hhigh⟩
  | succ m ih =>
    unfold lastMonth
    split
    next h => exact ⟨by omega, le_rfl, h, hhigh⟩
    next h =>
      rw [monthStart_succ leap (m + 1) (by omega) (by omega)] at h
      obtain ⟨h1, h2, h3, h4⟩ := ih (by omega) (not_le.mp h)
      exact ⟨h1, by omega, h3, h4⟩

theorem monthOfDay_spec {leap : Bool} {r : Int} (hlow : 0 ≤ r) (hhigh : r < yearLength leap) :
    1 ≤ monthOfDay leap r ∧ monthOfDay leap r ≤ 12 ∧ monthStart leap (monthOfDay leap r) ≤ r ∧
      r < monthStart leap (monthOfDay leap r) + monthLength leap (monthOfDay leap r) := by
  rw [yearLength_eq] at hhigh
  exact lastMonth_spec hlow 11 le_rfl hhigh

/-! ## Months since the year 0 -/

/-- The day number of the first of a month. -/
def monthBegin (i : Int) : Int := yearStart (i / 12) + monthStart (isLeap (i / 12)) ((i % 12).toNat + 1)

def lengthOfMonth (i : Int) : Int := monthLength (isLeap (i / 12)) ((i % 12).toNat + 1)

theorem monthBegin_succ (i : Int) : monthBegin (i + 1) = monthBegin i + lengthOfMonth i := by
  unfold monthBegin lengthOfMonth
  by_cases hlast : i % 12 = 11
  · have hyear : (i + 1) / 12 = i / 12 + 1 := by omega
    have hfirst : ((i + 1) % 12).toNat = 0 := by omega
    have hmonth : (i % 12).toNat + 1 = 12 := by omega
    have hjanuary : ∀ leap, monthStart leap (0 + 1) = 0 := by decide
    rw [hyear, hfirst, hmonth, yearStart_succ, yearLength_eq, hjanuary]
    omega
  · have hyear : (i + 1) / 12 = i / 12 := by omega
    have hmonth : ((i + 1) % 12).toNat = (i % 12).toNat + 1 := by omega
    rw [hyear, hmonth, monthStart_succ _ _ (by omega) (by omega)]
    omega

theorem monthBegin_lt {a b : Int} (h : a < b) : monthBegin a < monthBegin b := by
  have hstep : ∀ n : Nat, monthBegin a < monthBegin (a + 1 + n) := by
    intro n
    induction n with
    | zero =>
      have := monthBegin_succ a
      have := monthLength_pos (isLeap (a / 12)) ((a % 12).toNat + 1)
      unfold lengthOfMonth at *
      simp only [Nat.cast_zero, add_zero]
      omega
    | succ n ih =>
      have := monthBegin_succ (a + 1 + n)
      have := monthLength_pos (isLeap ((a + 1 + n) / 12)) (((a + 1 + n) % 12).toNat + 1)
      unfold lengthOfMonth at *
      rw [Nat.cast_succ, ← add_assoc]
      omega
  have hb := hstep (b - (a + 1)).toNat
  rwa [show a + 1 + ((b - (a + 1)).toNat : Int) = b by omega] at hb

theorem monthBegin_le {a b : Int} (h : a ≤ b) : monthBegin a ≤ monthBegin b := by
  rcases eq_or_lt_of_le h with rfl | hlt
  · exact le_rfl
  · exact (monthBegin_lt hlt).le

theorem monthBegin_year (y : Int) : monthBegin (12 * y) = yearStart y := by
  unfold monthBegin
  have hyear : 12 * y / 12 = y := by omega
  have hmonth : (12 * y % 12).toNat = 0 := by omega
  have hjanuary : ∀ leap, monthStart leap (0 + 1) = 0 := by decide
  rw [hyear, hmonth, hjanuary, add_zero]

/-! ## The parts of a day number -/

def monthOf (n : Int) : Nat := monthOfDay (isLeap (yearOf n)) (n - yearStart (yearOf n))

def dayOf (n : Int) : Int := n - yearStart (yearOf n) - monthStart (isLeap (yearOf n)) (monthOf n) + 1

/-- The day number of a date. -/
def ofYmd (y : Int) (m : Nat) (d : Int) : Int := yearStart y + monthStart (isLeap y) m + (d - 1)

theorem ofYmd_parts (n : Int) : ofYmd (yearOf n) (monthOf n) (dayOf n) = n := by
  unfold ofYmd dayOf
  omega

theorem monthOf_spec (n : Int) : 1 ≤ monthOf n ∧ monthOf n ≤ 12 ∧ 1 ≤ dayOf n ∧
    dayOf n ≤ monthLength (isLeap (yearOf n)) (monthOf n) := by
  obtain ⟨hlow, hhigh⟩ := yearOf_spec n
  rw [yearStart_succ] at hhigh
  obtain ⟨hm, hm', hstart, hend⟩ :=
    monthOfDay_spec (show 0 ≤ n - yearStart (yearOf n) by omega) (show _ < yearLength (isLeap (yearOf n)) by omega)
  refine ⟨hm, hm', ?_, ?_⟩
  · unfold dayOf monthOf
    omega
  · unfold dayOf monthOf
    omega

/-- The months from January of the year 0 to the month of a day. -/
def monthIndex (n : Int) : Int := 12 * yearOf n + (monthOf n - 1)

theorem monthBegin_eq (y : Int) (m : Nat) (hlow : 1 ≤ m) (hhigh : m ≤ 12) :
    monthBegin (12 * y + (m - 1)) = ofYmd y m 1 := by
  unfold monthBegin ofYmd
  have hyear : (12 * y + ((m : Int) - 1)) / 12 = y := by omega
  have hmonth : ((12 * y + ((m : Int) - 1)) % 12).toNat + 1 = m := by omega
  rw [hyear, hmonth]
  omega

theorem monthIndex_spec (n : Int) : monthBegin (monthIndex n) ≤ n ∧ n < monthBegin (monthIndex n + 1) := by
  obtain ⟨hm, hm', hd, hd'⟩ := monthOf_spec n
  have hparts := ofYmd_parts n
  have hyear : monthIndex n / 12 = yearOf n := by
    unfold monthIndex
    omega
  have hmonth : (monthIndex n % 12).toNat + 1 = monthOf n := by
    unfold monthIndex
    omega
  rw [monthBegin_succ]
  unfold lengthOfMonth
  rw [hyear, hmonth]
  unfold monthIndex
  rw [monthBegin_eq _ _ hm hm']
  unfold ofYmd at *
  omega

theorem monthIndex_unique {n i : Int} (hlow : monthBegin i ≤ n) (hhigh : n < monthBegin (i + 1)) : monthIndex n = i := by
  obtain ⟨hlow', hhigh'⟩ := monthIndex_spec n
  rcases Int.lt_trichotomy (monthIndex n) i with h | h | h
  · have := monthBegin_le (show monthIndex n + 1 ≤ i from h)
    omega
  · exact h
  · have := monthBegin_le (show i + 1 ≤ monthIndex n from h)
    omega

theorem monthIndex_monthBegin (i : Int) : monthIndex (monthBegin i) = i :=
  monthIndex_unique le_rfl (monthBegin_lt (by omega))

theorem monthIndex_le {a b : Int} (h : a ≤ b) : monthIndex a ≤ monthIndex b := by
  by_contra hlt
  have ha := (monthIndex_spec a).1
  have hb := (monthIndex_spec b).2
  have hle := monthBegin_le (show monthIndex b + 1 ≤ monthIndex a by omega)
  omega

/-- A day of an earlier month is earlier. -/
theorem lt_of_monthIndex_lt {a b : Int} (h : monthIndex a < monthIndex b) : a < b := by
  by_contra hle
  have := monthIndex_le (show b ≤ a by omega)
  omega

theorem dayOf_eq (n : Int) : dayOf n = n - monthBegin (monthIndex n) + 1 := by
  obtain ⟨hm, hm', -⟩ := monthOf_spec n
  unfold dayOf monthIndex
  rw [monthBegin_eq _ _ hm hm']
  unfold ofYmd
  omega

/-- A day of a month lies in that month. -/
theorem monthIndex_ofYmd {y : Int} {m : Nat} {d : Int} (hm : 1 ≤ m) (hm' : m ≤ 12) (hd : 1 ≤ d)
    (hd' : d ≤ monthLength (isLeap y) m) :
    ofYmd y m d = monthBegin (12 * y + (m - 1)) + (d - 1) ∧ monthIndex (ofYmd y m d) = 12 * y + (m - 1) := by
  have hday : ofYmd y m d = monthBegin (12 * y + (m - 1)) + (d - 1) := by
    rw [monthBegin_eq y m hm hm']
    unfold ofYmd
    omega
  have hlength : lengthOfMonth (12 * y + (m - 1)) = monthLength (isLeap y) m := by
    unfold lengthOfMonth
    rw [show (12 * y + ((m : Int) - 1)) / 12 = y by omega,
      show ((12 * y + ((m : Int) - 1)) % 12).toNat + 1 = m by omega]
  refine ⟨hday, monthIndex_unique (by omega) ?_⟩
  rw [monthBegin_succ]
  omega

/-! ## Weekdays -/

inductive Weekday where
  | mon | tue | wed | thu | fri | sat | sun
  deriving DecidableEq, Repr

namespace Weekday

def numDaysFromMonday : Weekday → Nat
  | mon => 0
  | tue => 1
  | wed => 2
  | thu => 3
  | fri => 4
  | sat => 5
  | sun => 6

def ofNum : Nat → Weekday
  | 0 => mon
  | 1 => tue
  | 2 => wed
  | 3 => thu
  | 4 => fri
  | 5 => sat
  | _ => sun

/-- The days from the last day that was `other` to this one. -/
def daysSince (self other : Weekday) : Nat := (7 + self.numDaysFromMonday - other.numDaysFromMonday) % 7

theorem daysSince_lt (self other : Weekday) : self.daysSince other < 7 := Nat.mod_lt _ (by decide)

end Weekday

/-- 1 January of the year 0 is a Saturday. -/
def weekdayOf (n : Int) : Weekday := Weekday.ofNum ((n + 5) % 7).toNat

theorem Weekday.numDaysFromMonday_lt (wd : Weekday) : wd.numDaysFromMonday < 7 := by
  cases wd <;> decide

theorem weekdayOf_eq_iff {n : Int} {wd : Weekday} : weekdayOf n = wd ↔ (n + 5) % 7 = wd.numDaysFromMonday := by
  have hofNum : ∀ m : Nat, m < 7 → (Weekday.ofNum m).numDaysFromMonday = m := by decide
  have hnum : ∀ wd : Weekday, Weekday.ofNum wd.numDaysFromMonday = wd := by
    intro wd
    cases wd <;> rfl
  unfold weekdayOf
  constructor
  · rintro rfl
    rw [hofNum _ (by omega)]
    omega
  · intro h
    rw [h, Int.toNat_natCast, hnum]

/-- The days that came since a weekday was last. -/
theorem daysSince_eq_iff {n : Int} {wd other : Weekday} (h : weekdayOf n = other) (j : Nat) :
    weekdayOf (n + j) = wd ↔ j % 7 = wd.daysSince other := by
  have hwd := wd.numDaysFromMonday_lt
  have hother := other.numDaysFromMonday_lt
  rw [weekdayOf_eq_iff] at h ⊢
  unfold Weekday.daysSince
  omega

end Civil
