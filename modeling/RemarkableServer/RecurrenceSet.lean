import Mathlib.Data.Set.Card
import RemarkableServer.DaySets
import RemarkableServer.RecurrenceWalk

/-!
# The recurrence set

What the rules of RFC 5545 select, said of dates and not of how they are found: the period a
date is in, the parts that it matches, and its place among the dates of its period. A walk
goes through this set.
-/
namespace RecurrenceSet

open Civil Chrono SortDedup Recurrence DaySets RecurrenceWalk
open Recurrence.Rule (dateKey)

/-! ## What a rule selects -/

/-- The first day of the week of a date. -/
def weekStart (wkst : Weekday) (d : NaiveDate) : Int := d.day - d.weekday.daysSince wkst

/-- Period `k` has the date: every so many days, weeks, months or years, from those of the start on. -/
def InPeriod (rule : Rule) (anchor : NaiveDate) (k : Nat) (d : NaiveDate) : Prop :=
  match rule.freq with
  | .daily => d.day = anchor.day + (k * rule.interval : Nat)
  | .weekly => weekStart rule.wkst d = weekStart rule.wkst anchor + 7 * (k * rule.interval : Nat)
  | .monthly => monthIndex d.day = monthIndex anchor.day + (k * rule.interval : Nat)
  | .yearly => d.year = anchor.year + (k * rule.interval : Nat)

def monthLengthOf (d : NaiveDate) : Nat := (monthLength (isLeap d.year) d.month).toNat

/-- A day of the month, counted from the end when negative. -/
def OnMonthDay (d : NaiveDate) (n : Int) : Prop := n = d.dayOfMonth ∨ n = d.dayOfMonth - (monthLengthOf d + 1 : Int)

/-- A weekday; with an ordinal, the `n`th of the month, counted from the end when negative. -/
def OnWeekday (d : NaiveDate) (item : Int × Weekday) : Prop :=
  d.weekday = item.2 ∧
    (item.1 = 0 ∨ item.1 = ((d.dayOfMonth - 1) / 7 + 1 : Nat) ∨
      item.1 = -((monthLengthOf d - d.dayOfMonth) / 7 + 1 : Nat))

/-- The date matches the parts of the rule, and the start where a part is missing that the frequency needs. -/
structure Selects (rule : Rule) (anchor d : NaiveDate) : Prop where
  month : rule.byMonth ≠ [] → d.month ∈ rule.byMonth
  monthDay : rule.byMonthDay ≠ [] → ∃ n ∈ rule.byMonthDay, OnMonthDay d n
  weekday : rule.byDay ≠ [] → ∃ item ∈ rule.byDay, OnWeekday d item
  byDefault : match rule.freq with
    | .daily => True
    | .weekly => rule.byDay = [] → d.weekday = anchor.weekday
    | .monthly => rule.byMonthDay = [] → rule.byDay = [] → d.dayOfMonth = anchor.dayOfMonth
    | .yearly =>
      (rule.byMonthDay = [] → rule.byDay = [] → d.dayOfMonth = anchor.dayOfMonth) ∧
        (rule.byMonth = [] → rule.byMonthDay = [] → d.month = anchor.month)

def periodSet (rule : Rule) (anchor : NaiveDate) (k : Nat) : Set NaiveDate :=
  {d | InPeriod rule anchor k d ∧ Selects rule anchor d}

/-- The place of a date among those of its period is one of `BYSETPOS`, from the start or, negative, from the end. -/
def AtSetPosition (rule : Rule) (dates : Set NaiveDate) (d : NaiveDate) : Prop :=
  rule.bySetPos ≠ [] → ∃ pos ∈ rule.bySetPos,
    pos = {x ∈ dates | x.day ≤ d.day}.ncard ∨ pos = -({x ∈ dates | d.day ≤ x.day}.ncard : Int)

/-- The dates of the recurrence set. -/
def InSet (rule : Rule) (anchor d : NaiveDate) : Prop :=
  ∃ k, d ∈ periodSet rule anchor k ∧ AtSetPosition rule (periodSet rule anchor k) d

/-! ## Months -/

variable {rule : Rule} {anchor d : NaiveDate} {k : Nat}

/-- The month of a date, as the rules look at it. -/
def monthAt (d : NaiveDate) : Month := ⟨monthLengthOf d, weekdayOf (monthBegin (monthIndex d.day))⟩

theorem monthLengthOf_bounds (d : NaiveDate) : 28 ≤ (monthAt d).len ∧ (monthAt d).len ≤ 31 := by
  have h := monthLength_pos (isLeap d.year) d.month
  simp only [monthAt, monthLengthOf]
  omega

theorem dayOfMonth_spec (d : NaiveDate) :
    IsDay (monthAt d) d.dayOfMonth ∧ (d.day = monthBegin (monthIndex d.day) + ((d.dayOfMonth - 1 : Nat) : Int)) := by
  have hspec := monthOf_spec d.day
  have hday := dayOf_eq d.day
  simp only [IsDay, monthAt, monthLengthOf, NaiveDate.dayOfMonth, NaiveDate.year, NaiveDate.month]
  omega

theorem fromYmd_eq_some {y : Int} {m n : Nat} :
    NaiveDate.fromYmd y m n = some d ↔ d.year = y ∧ d.month = m ∧ d.dayOfMonth = n := by
  have hspec := monthOf_spec d.day
  constructor
  · intro h
    obtain ⟨-, hm, hm', hn, -⟩ := NaiveDate.day_fromYmd h
    obtain ⟨hday, hindex⟩ := NaiveDate.monthIndex_fromYmd h
    have hdayOf := dayOf_eq d.day
    rw [hindex] at hdayOf
    simp only [NaiveDate.dayOfMonth, NaiveDate.year, NaiveDate.month]
    unfold monthIndex at hindex
    omega
  · rintro ⟨rfl, rfl, rfl⟩
    have hcast : (d.dayOfMonth : Int) = dayOf d.day := by
      simp only [NaiveDate.dayOfMonth]
      omega
    have hvalid : 1 ≤ d.month ∧ d.month ≤ 12 ∧ 1 ≤ d.dayOfMonth ∧
        (d.dayOfMonth : Int) ≤ monthLength (isLeap d.year) d.month :=
      ⟨hspec.1, hspec.2.1, by omega, hcast ▸ hspec.2.2.2⟩
    rw [NaiveDate.fromYmd, if_pos hvalid, NaiveDate.ofDay_eq_some, hcast]
    exact (ofYmd_parts d.day).symm

/-- The years of the range are whole. -/
theorem year_range (d : NaiveDate) : minDay ≤ yearStart d.year ∧ yearStart (d.year + 1) ≤ maxDay + 1 := by
  have hrange := d.inRange
  have hyear := yearOf_spec d.day
  unfold minDay maxDay at *
  unfold NaiveDate.year
  constructor
  · apply yearStart_le
    by_contra hlt
    have hle := yearStart_le (show yearOf d.day + 1 ≤ -262143 by omega)
    omega
  · rw [Int.sub_add_cancel]
    apply yearStart_le
    by_contra hlt
    have hle := yearStart_le (show 262143 ≤ yearOf d.day by omega)
    omega

theorem isSome_leapDay (d : NaiveDate) : (NaiveDate.fromYmd d.year 2 29).isSome = isLeap d.year := by
  have hrange := year_range d
  rw [yearStart_succ] at hrange
  unfold NaiveDate.fromYmd
  cases hleap : isLeap d.year with
  | false => simp [monthLength]
  | true =>
    have hday : ofYmd d.year 2 29 = yearStart d.year + 59 := by
      simp [ofYmd, hleap, monthStart]
      omega
    rw [hleap] at hrange
    simp only [yearLength, if_true] at hrange
    rw [if_pos (by simp [monthLength]), NaiveDate.isSome_ofDay]
    push_cast
    omega

/-- The months of the range are read as they are. -/
theorem month_of (d : NaiveDate) : Month.of d.year d.month = some (monthAt d) := by
  obtain ⟨first, hfirst⟩ := Option.isSome_iff_exists.mp (NaiveDate.isSome_firstOfMonth d)
  have hday := (NaiveDate.monthIndex_fromYmd hfirst).1
  have hindex : 12 * d.year + ((d.month : Int) - 1) = monthIndex d.day := rfl
  rw [hindex] at hday
  have hweekday : first.weekday = weekdayOf (monthBegin (monthIndex d.day)) := by
    unfold NaiveDate.weekday
    rw [hday]
    simp
  unfold Month.of
  rw [hfirst, Option.map_some, hweekday, isSome_leapDay]
  unfold monthAt monthLengthOf monthLength
  congr 2
  generalize d.month = m
  match m with
  | 2 => cases isLeap d.year <;> rfl
  | 4 | 6 | 9 | 11 => rfl
  | 0 | 1 | 3 | 5 | 7 | 8 | 10 => rfl
  | _ + 12 => rfl

/-- What a rule selects of a month's days is what it selects of the dates. -/
theorem selectedDay_iff (defaultDay : Nat) :
    SelectedDay rule (monthAt d) defaultDay d.dayOfMonth ↔
      (rule.byMonthDay = [] → rule.byDay = [] → d.dayOfMonth = defaultDay) ∧
        (rule.byMonthDay ≠ [] → ∃ n ∈ rule.byMonthDay, OnMonthDay d n) ∧
        (rule.byDay ≠ [] → ∃ item ∈ rule.byDay, OnWeekday d item) := by
  have hweekday : ∀ wd, (d.dayOfMonth - 1) % 7 = wd.daysSince (monthAt d).first ↔ d.weekday = wd := by
    intro wd
    rw [NaiveDate.weekday, (dayOfMonth_spec d).2]
    exact (daysSince_eq_iff rfl _).symm
  simp only [SelectedDay, NumberedDay, OrdinalDay, OnMonthDay, OnWeekday, hweekday]
  rfl

theorem testBit_dayOfMonth (defaultDay : Nat) :
    (rule.daysOfMonth (monthAt d) defaultDay).testBit d.dayOfMonth = true ↔
      (rule.byMonthDay = [] → rule.byDay = [] → d.dayOfMonth = defaultDay) ∧
        (rule.byMonthDay ≠ [] → ∃ n ∈ rule.byMonthDay, OnMonthDay d n) ∧
        (rule.byDay ≠ [] → ∃ item ∈ rule.byDay, OnWeekday d item) := by
  rw [testBit_daysOfMonth (monthLengthOf_bounds d), selectedDay_iff]
  exact and_iff_right (dayOfMonth_spec d).1

/-! ## The dates of a period -/

theorem monthMatches_iff (m : Nat) : rule.monthMatches m = true ↔ (rule.byMonth ≠ [] → m ∈ rule.byMonth) := by
  cases h : rule.byMonth with
  | nil => simp [Rule.monthMatches, h]
  | cons => simp [Rule.monthMatches, h]

theorem mem_daysIn_dayOfMonth (defaultDay : Nat) :
    d.dayOfMonth ∈ daysIn (rule.daysOfMonth (monthAt d) defaultDay) ↔
      (rule.byMonthDay = [] → rule.byDay = [] → d.dayOfMonth = defaultDay) ∧
        (rule.byMonthDay ≠ [] → ∃ n ∈ rule.byMonthDay, OnMonthDay d n) ∧
        (rule.byDay ≠ [] → ∃ item ∈ rule.byDay, OnWeekday d item) := by
  have hday := (dayOfMonth_spec d).1
  have hlen := monthLengthOf_bounds d
  rw [mem_daysIn, testBit_dayOfMonth]
  apply and_iff_right
  exact ⟨hday.1, hday.2.trans hlen.2⟩

theorem daily_mem {p : NaiveDate × List NaiveDate} {step : Nat} (hfreq : rule.freq = .daily)
    (h : rule.dailyPeriod anchor step = some p) :
    d ∈ p.2 ↔ d.day = anchor.day + step ∧ Selects rule anchor d := by
  obtain ⟨day, hday, h⟩ := Option.bind_eq_some_iff.mp h
  obtain ⟨month, hmonth, rfl⟩ := Option.map_eq_some_iff.mp h
  have hmonth' : month = monthAt day := by
    rw [month_of] at hmonth
    exact (Option.some.inj hmonth).symm
  have hbegin := NaiveDate.day_checkedAddDays hday
  subst hmonth'
  have hsel : (rule.monthMatches day.month &&
      (rule.daysOfMonth (monthAt day) day.dayOfMonth).testBit day.dayOfMonth) = true ↔ Selects rule anchor day := by
    rw [Bool.and_eq_true, monthMatches_iff, testBit_dayOfMonth]
    constructor
    · rintro ⟨hm, -, hmonthDay, hweekday⟩
      exact ⟨hm, hmonthDay, hweekday, by rw [hfreq]; trivial⟩
    · intro hsel
      exact ⟨hsel.month, fun _ _ => rfl, hsel.monthDay, hsel.weekday⟩
  dsimp only
  rw [← hbegin]
  constructor
  · intro hd
    split at hd
    next hselected =>
      rw [List.mem_singleton.mp hd]
      exact ⟨rfl, hsel.mp hselected⟩
    · cases hd
  · rintro ⟨hd, hselected⟩
    have hsame : d = day := NaiveDate.ext_day hd
    subst hsame
    rw [if_pos (hsel.mpr hselected)]
    exact List.mem_singleton_self d

theorem checkedAddDays_eq_some {week : NaiveDate} {n : Nat} :
    week.checkedAddDays n = some d ↔ n < 2 ^ 31 ∧ d.day = week.day + n := by
  unfold NaiveDate.checkedAddDays
  split
  next h =>
    rw [NaiveDate.ofDay_eq_some]
    exact (and_iff_right h).symm
  next h =>
    constructor
    · intro hnone
      cases hnone
    · exact fun hd => absurd hd.1 h

/-- The date of a weekday in the week that a day begins. -/
theorem weekStart_eq_iff {week : NaiveDate} {wkst : Weekday} (hweek : week.weekday = wkst) (wd : Weekday) :
    week.checkedAddDays (wd.daysSince wkst) = some d ↔ weekStart wkst d = week.day ∧ d.weekday = wd := by
  have hlt := wd.daysSince_lt wkst
  rw [checkedAddDays_eq_some]
  constructor
  · rintro ⟨-, hd⟩
    have hwd : d.weekday = wd := by
      rw [NaiveDate.weekday, hd, daysSince_eq_iff hweek]
      exact Nat.mod_eq_of_lt hlt
    exact ⟨by rw [weekStart, hwd]; omega, hwd⟩
  · rintro ⟨hstart, rfl⟩
    unfold weekStart at hstart
    exact ⟨by omega, by omega⟩

theorem weekStart_weekday (wkst : Weekday) (n : Nat) (day : Int) (hday : day = weekStart wkst d + 7 * n) :
    weekdayOf day = wkst := by
  have hwd : (d.day + 5) % 7 = d.weekday.numDaysFromMonday := weekdayOf_eq_iff.mp rfl
  have hlt := wkst.numDaysFromMonday_lt
  have hlt' := d.weekday.numDaysFromMonday_lt
  rw [weekdayOf_eq_iff, hday]
  unfold weekStart Weekday.daysSince
  omega

theorem weekly_mem {p : NaiveDate × List NaiveDate} {step : Nat} (hfreq : rule.freq = .weekly)
    (hsupported : rule.supported = true) (h : rule.weeklyPeriod anchor step = some p) :
    d ∈ p.2 ↔ weekStart rule.wkst d = weekStart rule.wkst anchor + 7 * step ∧ Selects rule anchor d := by
  have hordinals : rule.byMonthDay = [] ∧ ∀ item ∈ rule.byDay, item.1 = 0 := by
    have hsplit : (!(rule.byDay.any fun item => item.1 ≠ 0) && rule.byMonthDay.isEmpty) = true := by
      unfold Rule.supported at hsupported
      rw [hfreq, Bool.and_eq_true] at hsupported
      exact hsupported.1
    simpa [and_comm] using hsplit
  obtain ⟨week0, hweek0, h⟩ := Option.bind_eq_some_iff.mp h
  split at h
  · cases h
  obtain ⟨week, hweek, rfl⟩ := Option.map_eq_some_iff.mp h
  have hday := NaiveDate.day_checkedAddDays hweek
  rw [NaiveDate.day_checkedSubDays hweek0] at hday
  have hstart : week.day = weekStart rule.wkst anchor + 7 * step := by
    unfold weekStart
    omega
  have hweekday : week.weekday = rule.wkst := weekStart_weekday rule.wkst step week.day hstart
  dsimp only
  have hkey : Function.Injective dateKey := fun a b hab => NaiveDate.ext_day hab
  rw [mem_sortedBy hkey, List.mem_filter, List.mem_filterMap, monthMatches_iff, ← hstart]
  simp only [weekStart_eq_iff hweekday]
  have hdays : d.weekday ∈ (if rule.byDay.isEmpty then [anchor.weekday] else rule.byDay.map (·.2)) ↔
      (rule.byDay = [] → d.weekday = anchor.weekday) ∧ (rule.byDay ≠ [] → ∃ item ∈ rule.byDay, OnWeekday d item) := by
    cases hbyDay : rule.byDay with
    | nil => simp
    | cons item items =>
      rw [← hbyDay]
      have hne : rule.byDay ≠ [] := by simp [hbyDay]
      simp only [List.isEmpty_iff, hne, if_false, List.mem_map, false_imp_iff, true_and, ne_eq, not_false_eq_true,
        true_imp_iff]
      constructor
      · rintro ⟨x, hx, hwd⟩
        exact ⟨x, hx, hwd.symm, Or.inl (hordinals.2 x hx)⟩
      · rintro ⟨x, hx, hwd, -⟩
        exact ⟨x, hx, hwd.symm⟩
  constructor
  · rintro ⟨⟨wd, hwd, hweekStart, rfl⟩, hmonth⟩
    obtain ⟨hdefault, hbyDay⟩ := hdays.mp hwd
    exact ⟨hweekStart, hmonth, fun hne => absurd hordinals.1 hne, hbyDay, by rw [hfreq]; exact hdefault⟩
  · rintro ⟨hweekStart, hsel⟩
    have hdefault := hsel.byDefault
    rw [hfreq] at hdefault
    exact ⟨⟨d.weekday, hdays.mpr ⟨hdefault, hsel.weekday⟩, hweekStart, rfl⟩, hsel.month⟩

theorem monthIndex_eq_iff {first : NaiveDate} :
    monthIndex d.day = monthIndex first.day ↔ d.year = first.year ∧ d.month = first.month := by
  have hd := monthOf_spec d.day
  have hfirst := monthOf_spec first.day
  unfold monthIndex NaiveDate.year NaiveDate.month
  omega

theorem monthly_mem {p : NaiveDate × List NaiveDate} {step : Nat} (hfreq : rule.freq = .monthly)
    (h : rule.monthlyPeriod anchor step = some p) :
    d ∈ p.2 ↔ monthIndex d.day = monthIndex anchor.day + step ∧ Selects rule anchor d := by
  obtain ⟨begin, hbegin, h⟩ := Option.bind_eq_some_iff.mp h
  split at h
  · cases h
  obtain ⟨first, hfirst, h⟩ := Option.bind_eq_some_iff.mp h
  obtain ⟨hbeginDay, hbeginIndex⟩ := NaiveDate.day_withDay hbegin
  have hday := NaiveDate.day_checkedAddMonths hfirst (by rw [hbeginIndex]; omega)
  have hindex : monthIndex first.day = monthIndex anchor.day + step := by
    rw [hday, hbeginIndex, monthIndex_monthBegin]
  rw [← hindex, monthIndex_eq_iff]
  have hselects : Selects rule anchor d ↔ (rule.byMonth ≠ [] → d.month ∈ rule.byMonth) ∧
      d.dayOfMonth ∈ daysIn (rule.daysOfMonth (monthAt d) anchor.dayOfMonth) := by
    rw [mem_daysIn_dayOfMonth]
    constructor
    · intro hsel
      have hdefault := hsel.byDefault
      rw [hfreq] at hdefault
      exact ⟨hsel.month, hdefault, hsel.monthDay, hsel.weekday⟩
    · rintro ⟨hmonth, hdefault, hmonthDay, hweekday⟩
      exact ⟨hmonth, hmonthDay, hweekday, by rw [hfreq]; exact hdefault⟩
  split at h
  next hmatch =>
    cases h
    rw [Bool.not_eq_true', Bool.eq_false_iff, ne_eq, monthMatches_iff] at hmatch
    apply iff_of_false List.not_mem_nil
    rintro ⟨⟨-, hmonth⟩, hsel⟩
    exact hmatch (hmonth ▸ hsel.month)
  next hmatch =>
    rw [Bool.not_eq_true', Bool.not_eq_false, monthMatches_iff] at hmatch
    obtain ⟨month, hmonth, rfl⟩ := Option.map_eq_some_iff.mp h
    rw [List.mem_filterMap, hselects]
    constructor
    · rintro ⟨n, hn, hnd⟩
      obtain ⟨hyear, hm, rfl⟩ := fromYmd_eq_some.mp hnd
      rw [← hyear, ← hm, month_of] at hmonth
      cases hmonth
      exact ⟨⟨hyear, hm⟩, hm ▸ hmatch, hn⟩
    · rintro ⟨⟨hyear, hm⟩, -, hn⟩
      rw [← hyear, ← hm, month_of] at hmonth
      cases hmonth
      exact ⟨d.dayOfMonth, hn, fromYmd_eq_some.mpr ⟨hyear, hm, rfl⟩⟩

theorem mem_monthsOfYear : d.month ∈ rule.monthsOfYear anchor ↔
    (rule.byMonth ≠ [] → d.month ∈ rule.byMonth) ∧
      (rule.byMonth = [] → rule.byMonthDay = [] → d.month = anchor.month) := by
  have hspec := monthOf_spec d.day
  unfold Rule.monthsOfYear
  cases hmonth : rule.byMonth with
  | cons m ms => simp
  | nil =>
    cases hmonthDay : rule.byMonthDay with
    | nil => simp
    | cons n ns =>
      simp [NaiveDate.month]
      omega

theorem mem_datesOfMonth {year : Int} {m : Nat} :
    d ∈ rule.datesOfMonth anchor year m ↔
      d.year = year ∧ d.month = m ∧ d.dayOfMonth ∈ daysIn (rule.daysOfMonth (monthAt d) anchor.dayOfMonth) := by
  unfold Rule.datesOfMonth
  constructor
  · intro h
    split at h
    · cases h
    next month hmonth =>
      obtain ⟨n, hn, hnd⟩ := List.mem_filterMap.mp h
      obtain ⟨rfl, rfl, rfl⟩ := fromYmd_eq_some.mp hnd
      rw [month_of] at hmonth
      cases hmonth
      exact ⟨rfl, rfl, hn⟩
  · rintro ⟨rfl, rfl, hn⟩
    rw [month_of]
    exact List.mem_filterMap.mpr ⟨d.dayOfMonth, hn, fromYmd_eq_some.mpr ⟨rfl, rfl, rfl⟩⟩

theorem yearly_mem {p : NaiveDate × List NaiveDate} {step : Nat} (hfreq : rule.freq = .yearly)
    (h : rule.yearlyPeriod anchor step = some p) :
    d ∈ p.2 ↔ d.year = anchor.year + step ∧ Selects rule anchor d := by
  unfold Rule.yearlyPeriod at h
  split at h
  · cases h
  obtain ⟨first, -, rfl⟩ := Option.map_eq_some_iff.mp h
  simp only [List.mem_flatMap, mem_datesOfMonth, mem_daysIn_dayOfMonth]
  constructor
  · rintro ⟨m, hm, hyear, rfl, hdefault, hmonthDay, hweekday⟩
    obtain ⟨hmonth, hdefaultMonth⟩ := mem_monthsOfYear.mp hm
    exact ⟨hyear, hmonth, hmonthDay, hweekday, by rw [hfreq]; exact ⟨hdefault, hdefaultMonth⟩⟩
  · rintro ⟨hyear, hsel⟩
    have hdefault := hsel.byDefault
    rw [hfreq] at hdefault
    exact ⟨d.month, mem_monthsOfYear.mpr ⟨hsel.month, hdefault.2⟩, hyear, rfl, hdefault.1, hsel.monthDay, hsel.weekday⟩

/-- The dates found for a period are the ones that are selected in it. -/
theorem mem_period {p : NaiveDate × List NaiveDate} (hsupported : rule.supported = true)
    (h : rule.period anchor k = some p) : d ∈ p.2 ↔ d ∈ periodSet rule anchor k := by
  simp only [periodSet, InPeriod, Set.mem_ofPred_eq]
  unfold Rule.period at h
  split at h
  · cases h
  · cases hfreq : rule.freq <;> rw [hfreq] at h
    case daily => exact daily_mem hfreq h
    case weekly => exact weekly_mem hfreq hsupported h
    case monthly => exact monthly_mem hfreq h
    case yearly => exact yearly_mem hfreq h

/-! ## Positions -/

theorem ncard_filter {dates : List NaiveDate} (h : dates.Pairwise (dateKey · < dateKey ·)) (q : NaiveDate → Prop)
    [DecidablePred q] : {x ∈ {x | x ∈ dates} | q x}.ncard = (dates.filter fun x => q x).length := by
  have hnodup : dates.Nodup := h.imp fun hlt heq => (ne_of_lt hlt) (congrArg dateKey heq)
  rw [← List.toFinset_card_of_nodup (hnodup.filter _), ← Set.ncard_coe_finset]
  congr 1
  ext x
  simp

/-- The dates at a position are those that as many dates come before, or after. -/
theorem mem_atSetPositions {dates : List NaiveDate} (h : dates.Pairwise (dateKey · < dateKey ·)) :
    d ∈ rule.atSetPositions dates ↔ d ∈ dates ∧ AtSetPosition rule {x | x ∈ dates} d := by
  have hkey : Function.Injective dateKey := fun a b hab => NaiveDate.ext_day hab
  have hplace : ∀ i, dates[i]? = some d → {x ∈ {x | x ∈ dates} | x.day ≤ d.day}.ncard = i + 1 ∧
      {x ∈ {x | x ∈ dates} | d.day ≤ x.day}.ncard = dates.length - i := by
    intro i hi
    rw [ncard_filter h, ncard_filter h]
    exact ⟨length_filter_le h hi, length_filter_ge h hi⟩
  unfold Rule.atSetPositions AtSetPosition
  cases hpos : rule.bySetPos with
  | nil => simp
  | cons pos poss =>
    rw [← hpos]
    have hne : rule.bySetPos ≠ [] := by simp [hpos]
    simp only [List.isEmpty_iff, hne, if_false, mem_sortedBy hkey, List.mem_filterMap, ne_eq, not_false_eq_true,
      true_imp_iff]
    constructor
    · rintro ⟨pos, hmem, hat⟩
      split at hat
      next hfirst =>
        obtain ⟨hbefore, -⟩ := hplace _ hat
        exact ⟨List.mem_of_getElem? hat, pos, hmem, Or.inl (by omega)⟩
      next =>
        split at hat
        next hlast =>
          obtain ⟨-, hafter⟩ := hplace _ hat
          exact ⟨List.mem_of_getElem? hat, pos, hmem, Or.inr (by omega)⟩
        · cases hat
    · rintro ⟨hd, pos, hmem, hplaces⟩
      obtain ⟨i, hi⟩ := List.mem_iff_getElem?.mp hd
      have hlt := (List.getElem?_eq_some_iff.mp hi).1
      obtain ⟨hbefore, hafter⟩ := hplace i hi
      refine ⟨pos, hmem, ?_⟩
      rcases hplaces with hplaces | hplaces
      · rw [if_pos (by omega), show pos.toNat - 1 = i by omega, hi]
      · rw [if_neg (by omega), if_pos (by omega), show dates.length - pos.natAbs = i by omega, hi]

/-! ## All the periods -/

/-- The week of the start begins within the range, where that matters. -/
def Begins (rule : Rule) (anchor : NaiveDate) : Prop := rule.freq = .weekly → minDay ≤ weekStart rule.wkst anchor

theorem monthIndex_range (d : NaiveDate) : 12 * -262143 ≤ monthIndex d.day ∧ monthIndex d.day < 12 * 262143 := by
  have hrange := d.inRange
  constructor
  · rw [← monthIndex_monthBegin (12 * -262143), ← NaiveDate.minDay_eq]
    exact monthIndex_le hrange.1
  · by_contra hlt
    have hle := (monthBegin_le (not_lt.mp hlt)).trans (monthIndex_spec d.day).1
    rw [monthBegin_year] at hle
    unfold maxDay at hrange
    omega

/-- A period with a date is found. -/
theorem isSome_period (hbegins : Begins rule anchor) (h : InPeriod rule anchor k d) :
    (rule.period anchor k).isSome = true := by
  have hd := d.inRange
  have hanchor := anchor.inRange
  have hspan : maxDay - minDay < 2 ^ 31 := by decide
  unfold InPeriod at h
  unfold Begins at hbegins
  unfold Rule.period
  cases hfreq : rule.freq <;> rw [hfreq] at h hbegins <;> dsimp only at h ⊢
  case daily =>
    rw [if_neg (by omega), isSome_dailyPeriod]
    omega
  case weekly =>
    have hlow := hbegins rfl
    have hlt := d.weekday.daysSince_lt rule.wkst
    have hlt' := anchor.weekday.daysSince_lt rule.wkst
    unfold weekStart at h hlow
    obtain ⟨week0, hweek0⟩ : ∃ week0, anchor.checkedSubDays (anchor.weekday.daysSince rule.wkst) = some week0 := by
      rw [← Option.isSome_iff_exists]
      unfold NaiveDate.checkedSubDays
      rw [if_pos (by omega), NaiveDate.isSome_ofDay]
      omega
    have hday := NaiveDate.day_checkedSubDays hweek0
    rw [if_neg (by omega), isSome_weeklyPeriod]
    exact ⟨week0, hweek0, by omega, by omega⟩
  case monthly =>
    have hindex := monthIndex_range d
    have hindex' := monthIndex_range anchor
    have hbegin := (monthIndex_spec d.day).1
    rw [h] at hbegin
    rw [if_neg (by omega), isSome_monthlyPeriod]
    exact ⟨by omega, hbegin.trans hd.2⟩
  case yearly =>
    have hindex := monthIndex_range d
    have hindex' := monthIndex_range anchor
    have hspec := monthOf_spec d.day
    have hspec' := monthOf_spec anchor.day
    have hbegin := monthBegin_le (show 12 * d.year ≤ monthIndex d.day by unfold monthIndex NaiveDate.year; omega)
    unfold monthIndex at hindex hindex'
    rw [if_neg (by unfold NaiveDate.year at h; omega), isSome_yearlyPeriod]
    rw [h] at hbegin
    refine ⟨by unfold NaiveDate.year at h; omega, ?_⟩
    exact hbegin.trans ((monthIndex_spec d.day).1.trans hd.2)

theorem mem_datesFrom_iff {fuel : Nat} :
    d ∈ datesFrom rule anchor fuel k ↔
      ∃ j, k ≤ j ∧ j < k + fuel ∧ ∃ p, rule.period anchor j = some p ∧ d ∈ rule.atSetPositions p.2 := by
  induction fuel generalizing k with
  | zero =>
    simp only [datesFrom, List.not_mem_nil, false_iff]
    rintro ⟨j, hle, hlt, -⟩
    omega
  | succ fuel ih =>
    rw [datesFrom]
    cases hperiod : rule.period anchor k with
    | none =>
      simp only [List.not_mem_nil, false_iff]
      rintro ⟨j, hle, -, p, hp, -⟩
      rw [period_eq_none_of_le hle hperiod] at hp
      cases hp
    | some p =>
      simp only [List.mem_append, ih]
      constructor
      · rintro (hd | ⟨j, hle, hlt, hd⟩)
        · exact ⟨k, le_rfl, by omega, p, hperiod, hd⟩
        · exact ⟨j, by omega, by omega, hd⟩
      · rintro ⟨j, hle, hlt, q, hq, hd⟩
        rcases Nat.eq_or_lt_of_le hle with rfl | hlt'
        · rw [hperiod] at hq
          cases hq
          exact Or.inl hd
        · exact Or.inr ⟨j, hlt', by omega, q, hq, hd⟩

/-- The dates of all the periods are those of the recurrence set. -/
theorem mem_datesFrom_zero (hsupported : rule.supported = true) (hbegins : Begins rule anchor) :
    d ∈ datesFrom rule anchor lastPeriod 0 ↔ InSet rule anchor d := by
  have hset : ∀ {j p}, rule.period anchor j = some p → {x | x ∈ p.2} = periodSet rule anchor j := by
    intro j p hp
    ext x
    exact mem_period hsupported hp
  rw [mem_datesFrom_iff]
  constructor
  · rintro ⟨j, -, -, p, hp, hd⟩
    rw [mem_atSetPositions (period_isPeriod hp).sorted, mem_period hsupported hp, hset hp] at hd
    exact ⟨j, hd⟩
  · rintro ⟨j, hd⟩
    obtain ⟨p, hp⟩ := Option.isSome_iff_exists.mp (isSome_period hbegins hd.1.1)
    refine ⟨j, Nat.zero_le j, ?_, p, hp, ?_⟩
    · by_contra hlarge
      rw [period_eq_none_of_large (by omega)] at hp
      cases hp
    · rw [mem_atSetPositions (period_isPeriod hp).sorted, mem_period hsupported hp, hset hp]
      exact hd

/-- The date-times of the recurrence set after the start, in order. -/
theorem mem_occurrencesFrom_zero {start t : NaiveDateTime} (hsupported : rule.supported = true)
    (hbegins : Begins rule start.date) :
    t ∈ occurrencesFrom rule start 0 ↔ start < t ∧ t.time = start.time ∧ InSet rule start.date t.date := by
  rw [← mem_datesFrom_zero hsupported hbegins]
  simp only [occurrencesFrom, startsOn, List.mem_filter, List.mem_map, decide_eq_true_eq]
  constructor
  · rintro ⟨⟨date, hdate, rfl⟩, hlt⟩
    exact ⟨hlt, rfl, hdate⟩
  · rintro ⟨hlt, htime, hdate⟩
    exact ⟨⟨t.date, hdate, by rw [← htime]⟩, hlt⟩

end RecurrenceSet
