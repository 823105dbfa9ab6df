import Mathlib.Order.Lattice
import RemarkableServer.Lib.Civil

/-!
# Dates and times with a range

Dates from the year -262143 to the year 262142, and times of day that may be in a leap
second. An operation whose result is out of range has none. Ints are nanoseconds.
-/
namespace Chrono

open Civil

/-! ## Dates -/

def minDay : Int := yearStart (-262143)

def maxDay : Int := yearStart 262143 - 1

structure NaiveDate where
  day : Int
  inRange : minDay ≤ day ∧ day ≤ maxDay
  deriving DecidableEq, Repr

namespace NaiveDate

def ofDay (n : Int) : Option NaiveDate := if h : minDay ≤ n ∧ n ≤ maxDay then some ⟨n, h⟩ else none

def year (d : NaiveDate) : Int := yearOf d.day

def month (d : NaiveDate) : Nat := monthOf d.day

def dayOfMonth (d : NaiveDate) : Nat := (dayOf d.day).toNat

def weekday (d : NaiveDate) : Weekday := weekdayOf d.day

/-- `from_ymd_opt`. -/
def fromYmd (y : Int) (m d : Nat) : Option NaiveDate :=
  if 1 ≤ m ∧ m ≤ 12 ∧ 1 ≤ d ∧ (d : Int) ≤ monthLength (isLeap y) m then ofDay (ofYmd y m d) else none

def withDay (date : NaiveDate) (d : Nat) : Option NaiveDate := fromYmd date.year date.month d

def checkedAddDays (date : NaiveDate) (n : Nat) : Option NaiveDate :=
  if n < 2 ^ 31 then ofDay (date.day + n) else none

def checkedSubDays (date : NaiveDate) (n : Nat) : Option NaiveDate :=
  if n < 2 ^ 31 then ofDay (date.day - n) else none

/-- The same day of a later month, or its last day. -/
def checkedAddMonths (date : NaiveDate) (n : Nat) : Option NaiveDate :=
  if n < 2 ^ 31 then
    let i := date.year * 12 + (date.month - 1) + n
    let m := (i % 12).toNat + 1
    fromYmd (i / 12) m (min date.dayOfMonth (monthLength (isLeap (i / 12)) m).toNat)
  else none

theorem ext_day {a b : NaiveDate} (h : a.day = b.day) : a = b := by
  cases a
  cases b
  cases h
  rfl

theorem ofDay_eq_some {n : Int} {d : NaiveDate} : ofDay n = some d ↔ d.day = n := by
  unfold ofDay
  constructor
  · intro h
    split at h
    · cases h
      rfl
    · cases h
  · rintro rfl
    rw [dif_pos d.inRange]

theorem day_fromYmd {y : Int} {m d : Nat} {date : NaiveDate} (h : fromYmd y m d = some date) :
    date.day = ofYmd y m d ∧ 1 ≤ m ∧ m ≤ 12 ∧ 1 ≤ d ∧ (d : Int) ≤ monthLength (isLeap y) m := by
  unfold fromYmd at h
  split at h
  next hvalid => exact ⟨ofDay_eq_some.mp h, hvalid⟩
  · cases h

/-- A date made of a year, a month and a day lies in that month. -/
theorem monthIndex_fromYmd {y : Int} {m d : Nat} {date : NaiveDate} (h : fromYmd y m d = some date) :
    date.day = monthBegin (12 * y + (m - 1)) + (d - 1) ∧ monthIndex date.day = 12 * y + (m - 1) := by
  obtain ⟨hday, hm, hm', hd, hd'⟩ := day_fromYmd h
  rw [hday]
  exact monthIndex_ofYmd hm hm' (by omega) hd'

theorem day_withDay {date d : NaiveDate} {n : Nat} (h : date.withDay n = some d) :
    d.day = monthBegin (monthIndex date.day) + (n - 1) ∧ monthIndex d.day = monthIndex date.day :=
  monthIndex_fromYmd h

theorem day_checkedAddDays {date d : NaiveDate} {n : Nat} (h : date.checkedAddDays n = some d) : d.day = date.day + n := by
  unfold checkedAddDays at h
  split at h
  · exact ofDay_eq_some.mp h
  · cases h

theorem day_checkedSubDays {date d : NaiveDate} {n : Nat} (h : date.checkedSubDays n = some d) : d.day = date.day - n := by
  unfold checkedSubDays at h
  split at h
  · exact ofDay_eq_some.mp h
  · cases h

theorem isSome_ofDay {n : Int} : (ofDay n).isSome = true ↔ minDay ≤ n ∧ n ≤ maxDay := by
  unfold ofDay
  split
  next h => exact ⟨fun _ => h, fun _ => rfl⟩
  next h => exact ⟨fun hsome => (nomatch hsome), fun h' => absurd h' h⟩

theorem minDay_eq : minDay = monthBegin (12 * -262143) := (monthBegin_year _).symm

/-- The first of a month of the range is in the range. -/
theorem minDay_le_monthBegin {n i : Int} (hn : minDay ≤ n) (hi : monthIndex n ≤ i) : minDay ≤ monthBegin i := by
  rw [minDay_eq] at hn ⊢
  have hle := monthIndex_le hn
  rw [monthIndex_monthBegin] at hle
  exact monthBegin_le (hle.trans hi)

/-- There is a first of a month, if it is not past the range. -/
theorem isSome_fromYmd_first {y : Int} {m : Nat} (hm : 1 ≤ m) (hm' : m ≤ 12) :
    (fromYmd y m 1).isSome = true ↔
      minDay ≤ monthBegin (12 * y + (m - 1)) ∧ monthBegin (12 * y + (m - 1)) ≤ maxDay := by
  have hlength := monthLength_pos (isLeap y) m
  unfold fromYmd
  rw [if_pos ⟨hm, hm', le_rfl, by omega⟩, isSome_ofDay, monthBegin_eq y m hm hm']
  rfl

theorem isSome_firstOfMonth (date : NaiveDate) : (fromYmd date.year date.month 1).isSome = true := by
  have hmonth : 1 ≤ date.month ∧ date.month ≤ 12 := ⟨(monthOf_spec date.day).1, (monthOf_spec date.day).2.1⟩
  have hindex : 12 * date.year + ((date.month : Int) - 1) = monthIndex date.day := rfl
  rw [isSome_fromYmd_first hmonth.1 hmonth.2, hindex]
  exact ⟨minDay_le_monthBegin date.inRange.1 le_rfl, (monthIndex_spec date.day).1.trans date.inRange.2⟩

/-- Months added to the first of a month. -/
theorem checkedAddMonths_first {date : NaiveDate} {n : Nat} (hfirst : date.day = monthBegin (monthIndex date.day)) :
    date.checkedAddMonths n =
      if n < 2 ^ 31 then
        fromYmd ((monthIndex date.day + n) / 12) (((monthIndex date.day + n) % 12).toNat + 1) 1
      else none := by
  have hone : date.dayOfMonth = 1 := by
    have := dayOf_eq date.day
    unfold dayOfMonth
    omega
  have hindex : date.year * 12 + ((date.month : Int) - 1) = monthIndex date.day := by
    unfold monthIndex year month
    omega
  unfold checkedAddMonths
  dsimp only
  rw [hone, hindex]
  have hlength := monthLength_pos (isLeap ((monthIndex date.day + n) / 12)) (((monthIndex date.day + n) % 12).toNat + 1)
  rw [Nat.min_eq_left (by omega)]

theorem day_checkedAddMonths {date d : NaiveDate} {n : Nat} (h : date.checkedAddMonths n = some d)
    (hfirst : date.day = monthBegin (monthIndex date.day)) : d.day = monthBegin (monthIndex date.day + n) := by
  rw [checkedAddMonths_first hfirst] at h
  split at h
  · have hday := (monthIndex_fromYmd h).1
    generalize monthIndex date.day + n = i at hday ⊢
    rw [hday, show 12 * (i / 12) + (((i % 12).toNat + 1 : Nat) - 1 : Int) = i by omega]
    omega
  · cases h

theorem isSome_checkedAddMonths {date : NaiveDate} {n : Nat} (hfirst : date.day = monthBegin (monthIndex date.day)) :
    (date.checkedAddMonths n).isSome = true ↔
      n < 2 ^ 31 ∧ minDay ≤ monthBegin (monthIndex date.day + n) ∧ monthBegin (monthIndex date.day + n) ≤ maxDay := by
  rw [checkedAddMonths_first hfirst]
  generalize monthIndex date.day + n = i
  split
  next h =>
    rw [isSome_fromYmd_first (by omega) (by omega),
      show 12 * (i / 12) + (((i % 12).toNat + 1 : Nat) - 1 : Int) = i by omega]
    exact ⟨fun hrange => ⟨h, hrange⟩, fun hrange => hrange.2⟩
  next h => exact ⟨fun hsome => (nomatch hsome), fun hrange => absurd hrange.1 h⟩

theorem isSome_checkedAddDays {date : NaiveDate} {n : Nat} :
    (date.checkedAddDays n).isSome = true ↔ n < 2 ^ 31 ∧ date.day + n ≤ maxDay := by
  have := date.inRange
  unfold checkedAddDays
  split
  next h =>
    rw [isSome_ofDay]
    exact ⟨fun hrange => ⟨h, hrange.2⟩, fun hrange => ⟨by omega, hrange.2⟩⟩
  next h => exact ⟨fun hsome => (nomatch hsome), fun hrange => absurd hrange.1 h⟩

end NaiveDate

/-! ## Times -/

instance neZero_secs : NeZero 86400 := ⟨by decide⟩
instance neZero_frac : NeZero 2000000000 := ⟨by decide⟩

/-- A time of day; from 10^9 on the fraction is in a leap second, after the last second of a minute. -/
structure NaiveTime where
  secs : Fin 86400
  frac : Fin 2000000000
  leap : 1000000000 ≤ frac.val → secs.val % 60 = 59
  deriving DecidableEq, Repr

def NaiveTime.midnight : NaiveTime := ⟨0, 0, by decide⟩

structure NaiveDateTime where
  date : NaiveDate
  time : NaiveTime
  deriving DecidableEq, Repr

/-- The nanoseconds of a length of time in seconds. -/
def seconds (n : Int) : Int := n * 1000000000

def days (n : Int) : Int := seconds (n * 86400)

def hours (n : Int) : Int := seconds (n * 3600)

namespace NaiveDateTime

/-- A number in the order of the times. -/
def key (t : NaiveDateTime) : Int := (t.date.day * 86400 + t.time.secs.val) * 2000000000 + t.time.frac.val

/-- The nanoseconds of a clock that does not count leap seconds. -/
def nanos (t : NaiveDateTime) : Int := (t.date.day * 86400 + t.time.secs.val) * 1000000000 + t.time.frac.val

theorem key_injective : Function.Injective key := by
  intro a b h
  have hsecs := a.time.secs.isLt
  have hsecs' := b.time.secs.isLt
  have hfrac := a.time.frac.isLt
  have hfrac' := b.time.frac.isLt
  unfold key at h
  have hdate : a.date = b.date := NaiveDate.ext_day (by omega)
  have htime : a.time = b.time := by
    have hsame : a.time.secs = b.time.secs := Fin.ext (by omega)
    have hsame' : a.time.frac = b.time.frac := Fin.ext (by omega)
    cases ha : a.time
    cases hb : b.time
    rw [ha, hb] at hsame hsame'
    dsimp only at hsame hsame'
    subst hsame hsame'
    rfl
  cases a
  cases b
  cases hdate
  cases htime
  rfl

instance : LinearOrder NaiveDateTime := LinearOrder.lift' key key_injective

theorem le_iff {a b : NaiveDateTime} : a ≤ b ↔ a.key ≤ b.key := Iff.rfl

theorem lt_iff {a b : NaiveDateTime} : a < b ↔ a.key < b.key := Iff.rfl

/-- Later times are later on the clock, but for a leap second. -/
theorem nanos_lt_of_le {a b : NaiveDateTime} (h : a ≤ b) : a.nanos < b.nanos + 1000000000 := by
  have ha := a.time.frac.isLt
  have hb := b.time.frac.isLt
  rw [le_iff] at h
  unfold key at h
  unfold nanos
  omega

/-- The whole seconds of a duration, towards zero. -/
def numSeconds (d : Int) : Int := if 0 ≤ d then d / 1000000000 else -(-d / 1000000000)

def subsecNanos (d : Int) : Int := d - numSeconds d * 1000000000

/-- The seconds of a day and the fraction after a duration, the seconds not yet brought into a day. A leap second is
left, unless the fraction stays in it. -/
def addToTime (t : NaiveTime) (d : Int) : Int × Int :=
  let secs : Int := t.secs.val
  let frac : Int := t.frac.val
  let later := 0 < numSeconds d ∨ (0 < subsecNanos d ∧ 2000000000 - subsecNanos d ≤ frac)
  if 1000000000 ≤ frac ∧ ¬later ∧ ¬numSeconds d < 0 then (secs, frac + subsecNanos d)
  else
    let start : Int × Int :=
      if 1000000000 ≤ frac then (if later then secs else secs + 1, frac - 1000000000) else (secs, frac)
    let secs := start.1 + numSeconds d
    let frac := start.2 + subsecNanos d
    if frac < 0 then (secs - 1, frac + 1000000000)
    else if 1000000000 ≤ frac then (secs + 1, frac - 1000000000)
    else (secs, frac)

theorem subsecNanos_bounds (d : Int) : -1000000000 < subsecNanos d ∧ subsecNanos d < 1000000000 := by
  unfold subsecNanos numSeconds
  split <;> omega

theorem addToTime_frac (t : NaiveTime) (d : Int) : 0 ≤ (addToTime t d).2 ∧ (addToTime t d).2 < 2000000000 := by
  have hfrac := t.frac.isLt
  have hsub := subsecNanos_bounds d
  unfold addToTime
  dsimp only
  split_ifs <;> dsimp only <;> omega

/-- Only a time that stays in its leap second is in one. -/
theorem addToTime_leap {t : NaiveTime} {d : Int} (h : 1000000000 ≤ (addToTime t d).2) :
    (addToTime t d).1 = t.secs.val ∧ t.secs.val % 60 = 59 := by
  have hleap := t.leap
  have hfrac := t.frac.isLt
  have hsub := subsecNanos_bounds d
  unfold addToTime at h ⊢
  dsimp only at h ⊢
  split_ifs at h ⊢ <;> dsimp only at h ⊢ <;> omega

/-- `checked_add_signed`. -/
def checkedAddSigned (t : NaiveDateTime) (d : Int) : Option NaiveDateTime :=
  (NaiveDate.ofDay (t.date.day + (addToTime t.time d).1 / 86400)).map fun date =>
    { date := date
      time :=
        { secs := ⟨((addToTime t.time d).1 % 86400).toNat, by omega⟩
          frac := ⟨(addToTime t.time d).2.toNat, by have := addToTime_frac t.time d; omega⟩
          leap := by
            intro h
            have hleap := @addToTime_leap t.time d (by dsimp only at h; omega)
            have hsecs := t.time.secs.isLt
            dsimp only
            omega } }

def checkedSubSigned (t : NaiveDateTime) (d : Int) : Option NaiveDateTime := t.checkedAddSigned (-d)

/-- `signed_duration_since`: a leap second between two times of day counts. -/
def since (a b : NaiveDateTime) : Int :=
  let leap : Int :=
    if b.time.secs < a.time.secs ∧ 1000000000 ≤ b.time.frac.val then 1
    else if a.time.secs < b.time.secs ∧ 1000000000 ≤ a.time.frac.val then -1
    else 0
  days (a.date.day - b.date.day) + seconds ((a.time.secs.val : Int) - b.time.secs.val + leap) +
    ((a.time.frac.val : Int) - b.time.frac.val)

theorem nanos_addToTime (t : NaiveTime) (d : Int) :
    let sum := (t.secs.val : Int) * 1000000000 + t.frac.val + d
    (addToTime t d).1 * 1000000000 + (addToTime t d).2 ≤ sum ∧
      sum ≤ (addToTime t d).1 * 1000000000 + (addToTime t d).2 + 1000000000 := by
  have hd : d = numSeconds d * 1000000000 + subsecNanos d := by
    unfold subsecNanos
    omega
  unfold addToTime
  dsimp only
  split_ifs <;> dsimp only <;> omega

/-- An added duration may count a leap second. -/
theorem nanos_checkedAddSigned {t t' : NaiveDateTime} {d : Int} (h : t.checkedAddSigned d = some t') :
    t'.nanos ≤ t.nanos + d ∧ t.nanos + d ≤ t'.nanos + 1000000000 := by
  unfold checkedAddSigned at h
  obtain ⟨date, hdate, rfl⟩ := Option.map_eq_some_iff.mp h
  have hday := NaiveDate.ofDay_eq_some.mp hdate
  have hsum := nanos_addToTime t.time d
  have hfrac := addToTime_frac t.time d
  unfold nanos
  dsimp only at hsum ⊢
  rw [hday]
  omega

theorem nanos_checkedSubSigned {t t' : NaiveDateTime} {d : Int} (h : t.checkedSubSigned d = some t') :
    t'.nanos ≤ t.nanos - d ∧ t.nanos - d ≤ t'.nanos + 1000000000 := by
  have := nanos_checkedAddSigned h
  omega

theorem nanos_since (a b : NaiveDateTime) :
    a.since b ≤ a.nanos - b.nanos + 1000000000 ∧ a.nanos - b.nanos ≤ a.since b + 1000000000 := by
  unfold since nanos days seconds
  dsimp only
  split_ifs <;> omega

/-- Back in time only within a leap second. -/
theorem since_ge {a b : NaiveDateTime} (h : b ≤ a) : -2000000000 ≤ a.since b := by
  have hnanos := nanos_lt_of_le h
  have hsince := nanos_since a b
  omega

/-- A second on the clock is enough to tell which time is later. -/
theorem lt_of_nanos {a b : NaiveDateTime} (h : a.nanos + 1000000000 ≤ b.nanos) : a < b := by
  by_contra hle
  have := nanos_lt_of_le (not_lt.mp hle)
  omega

/-! ### Whole seconds -/

/-- The seconds of a clock that does not count leap seconds. -/
def clock (t : NaiveDateTime) : Int := t.date.day * 86400 + t.time.secs.val

/-- The second that `t` is past the clock, if it is in a leap second. -/
def leapSecond (t : NaiveDateTime) : Int := if 1000000000 ≤ t.time.frac.val then 1 else 0

theorem leapSecond_cases (t : NaiveDateTime) :
    (t.leapSecond = 0 ∧ t.time.frac.val < 1000000000) ∨ (t.leapSecond = 1 ∧ 1000000000 ≤ t.time.frac.val) := by
  unfold leapSecond
  split <;> omega

theorem ext_clock {a b : NaiveDateTime} (hclock : a.clock = b.clock) (hfrac : a.time.frac.val = b.time.frac.val) : a = b := by
  apply key_injective
  unfold clock at hclock
  unfold key
  omega

theorem lt_of_clock {a b : NaiveDateTime} (h : a.clock < b.clock) : a < b := by
  have ha := a.time.frac.isLt
  unfold clock at h
  rw [lt_iff]
  unfold key
  omega

theorem addToTime_seconds (t : NaiveTime) (n : Int) :
    addToTime t (-seconds n) =
      (t.secs.val - n + (if 1000000000 ≤ t.frac.val ∧ 0 < n then 1 else 0),
        (t.frac.val : Int) - (if 1000000000 ≤ t.frac.val ∧ n ≠ 0 then 1000000000 else 0)) := by
  have hnum : numSeconds (-seconds n) = -n := by
    unfold numSeconds seconds
    split <;> omega
  have hsub : subsecNanos (-seconds n) = 0 := by
    unfold subsecNanos
    rw [hnum]
    unfold seconds
    omega
  have hfrac := t.frac.isLt
  unfold addToTime
  rw [hnum, hsub]
  dsimp only
  ext <;> split_ifs <;> dsimp only <;> omega

/-- Back by whole seconds. A time leaves its leap second for the second before it or the one after it. -/
theorem checkedSubSigned_seconds {t t' : NaiveDateTime} {n : Int} (h : t.checkedSubSigned (seconds n) = some t') :
    t'.clock = t.clock - n + (if 0 < n then t.leapSecond else 0) ∧
      (t'.time.frac.val : Int) = t.time.frac.val - (if n = 0 then 0 else t.leapSecond * 1000000000) := by
  obtain ⟨date, hdate, rfl⟩ := Option.map_eq_some_iff.mp h
  have hday := NaiveDate.ofDay_eq_some.mp hdate
  have hsum := addToTime_seconds t.time n
  have hfrac := t.time.frac.isLt
  unfold clock leapSecond
  dsimp only
  rw [hday, hsum]
  dsimp only
  constructor <;> split_ifs <;> omega

theorem isSome_checkedSubSigned_seconds {t : NaiveDateTime} {n : Int} (hlow : minDay * 86400 ≤ t.clock - n)
    (hhigh : t.clock - n + 1 < (maxDay + 1) * 86400) : (t.checkedSubSigned (seconds n)).isSome = true := by
  unfold checkedSubSigned checkedAddSigned
  rw [Option.isSome_map, NaiveDate.isSome_ofDay, addToTime_seconds]
  unfold clock at hlow hhigh
  dsimp only
  split_ifs <;> omega

end NaiveDateTime

end Chrono
