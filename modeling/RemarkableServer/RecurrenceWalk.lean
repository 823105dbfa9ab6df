import RemarkableServer.Recurrence

/-!
# The occurrences of a rule

The periods of a rule follow one another, and the dates of each are in order. So a walk that
is not cut short by its budget visits the occurrences of the rule in order, up to its end,
and what it skips lies before the date it was given.
-/
namespace RecurrenceWalk

open Civil Chrono SortDedup Recurrence
open Recurrence.Rule (dateKey)

variable {rule : Rule} {anchor : NaiveDate} {k : Nat}

/-! ## Periods -/

/-- The day a period begins with, in the range or not. -/
def periodBegin (rule : Rule) (anchor : NaiveDate) (k : Nat) : Int :=
  match rule.freq with
  | .daily => anchor.day + (k * rule.interval : Nat)
  | .weekly => anchor.day - anchor.weekday.daysSince rule.wkst + 7 * (k * rule.interval : Nat)
  | .monthly => monthBegin (monthIndex anchor.day + (k * rule.interval : Nat))
  | .yearly => monthBegin (12 * (anchor.year + (k * rule.interval : Nat)))

theorem periodBegin_lt (rule : Rule) (anchor : NaiveDate) {j k : Nat} (h : j < k) :
    periodBegin rule anchor j < periodBegin rule anchor k := by
  have hstep : j * rule.interval < k * rule.interval := Nat.mul_lt_mul_of_pos_right h rule.interval_pos
  unfold periodBegin
  cases rule.freq with
  | daily =>
    dsimp only
    omega
  | weekly =>
    dsimp only
    omega
  | monthly => exact monthBegin_lt (by omega)
  | yearly => exact monthBegin_lt (by omega)

/-- What a period is: its first day, and dates in order between it and the next period. -/
structure IsPeriod (rule : Rule) (anchor : NaiveDate) (k : Nat) (p : NaiveDate × List NaiveDate) : Prop where
  begins : p.1.day = periodBegin rule anchor k
  sorted : p.2.Pairwise (dateKey · < dateKey ·)
  within : ∀ d ∈ p.2, p.1.day ≤ d.day ∧ d.day < periodBegin rule anchor (k + 1)

theorem daily_isPeriod {p : NaiveDate × List NaiveDate} (hfreq : rule.freq = .daily)
    (h : rule.dailyPeriod anchor (k * rule.interval) = some p) : IsPeriod rule anchor k p := by
  obtain ⟨day, hday, h⟩ := Option.bind_eq_some_iff.mp h
  obtain ⟨month, hmonth, rfl⟩ := Option.map_eq_some_iff.mp h
  have hbegin := NaiveDate.day_checkedAddDays hday
  have hnext := periodBegin_lt rule anchor (Nat.lt_succ_self k)
  have hbegins : day.day = periodBegin rule anchor k := by
    unfold periodBegin
    rw [hfreq]
    exact hbegin
  refine ⟨hbegins, ?_, ?_⟩
  · dsimp only
    split
    · exact List.pairwise_singleton _ _
    · exact List.Pairwise.nil
  · intro d hd
    dsimp only at hd ⊢
    split at hd
    · rw [List.mem_singleton.mp hd]
      exact ⟨le_rfl, hbegins ▸ hnext⟩
    · cases hd

theorem weekly_isPeriod {p : NaiveDate × List NaiveDate} (hfreq : rule.freq = .weekly)
    (h : rule.weeklyPeriod anchor (k * rule.interval) = some p) : IsPeriod rule anchor k p := by
  obtain ⟨week0, hweek0, h⟩ := Option.bind_eq_some_iff.mp h
  split at h
  · cases h
  obtain ⟨week, hweek, rfl⟩ := Option.map_eq_some_iff.mp h
  have hweek := NaiveDate.day_checkedAddDays hweek
  rw [NaiveDate.day_checkedSubDays hweek0] at hweek
  have hpos : k * rule.interval + 1 ≤ (k + 1) * rule.interval := by
    rw [Nat.succ_mul]
    exact Nat.add_le_add_left rule.interval_pos _
  refine ⟨?_, pairwise_sortedBy _ _, ?_⟩
  · unfold periodBegin
    rw [hfreq]
    dsimp only
    omega
  · intro d hd
    obtain ⟨wd, -, hwd⟩ := List.mem_filterMap.mp (List.mem_filter.mp (mem_of_mem_sortedBy hd)).1
    have hday := NaiveDate.day_checkedAddDays hwd
    have hlt := Weekday.daysSince_lt wd rule.wkst
    unfold periodBegin
    rw [hfreq]
    dsimp only
    omega

theorem pairwise_daysIn (set : DaySet) : (daysIn set).Pairwise (· < ·) := by
  have hrange : (List.range' 1 31).Pairwise (· < ·) := List.pairwise_lt_range'
  exact hrange.sublist List.filter_sublist

/-- Dates of one month are in the order of their days. -/
theorem pairwise_filterMap_days {f : Nat → Option NaiveDate} {i : Int} {days : List Nat} (hdays : days.Pairwise (· < ·))
    (hf : ∀ n d, f n = some d → d.day = monthBegin i + (n - 1)) :
    (days.filterMap f).Pairwise (dateKey · < dateKey ·) := by
  refine List.Pairwise.filterMap f (fun a b hab x hx y hy => ?_) hdays
  unfold dateKey
  rw [hf a x hx, hf b y hy]
  omega

theorem monthly_isPeriod {p : NaiveDate × List NaiveDate} (hfreq : rule.freq = .monthly)
    (h : rule.monthlyPeriod anchor (k * rule.interval) = some p) : IsPeriod rule anchor k p := by
  obtain ⟨begin, hbegin, h⟩ := Option.bind_eq_some_iff.mp h
  split at h
  · cases h
  obtain ⟨first, hfirst, h⟩ := Option.bind_eq_some_iff.mp h
  obtain ⟨hbeginDay, hbeginIndex⟩ := NaiveDate.day_withDay hbegin
  have hday := NaiveDate.day_checkedAddMonths hfirst (by rw [hbeginIndex]; omega)
  rw [hbeginIndex] at hday
  have hbegins : first.day = periodBegin rule anchor k := by
    unfold periodBegin
    rw [hfreq]
    exact hday
  have hindex : monthIndex first.day = monthIndex anchor.day + (k * rule.interval : Nat) := by
    rw [hday, monthIndex_monthBegin]
  split at h
  · cases h
    exact ⟨hbegins, List.Pairwise.nil, fun _ hd => nomatch hd⟩
  · obtain ⟨month, -, rfl⟩ := Option.map_eq_some_iff.mp h
    refine ⟨hbegins, ?_, ?_⟩
    · exact pairwise_filterMap_days (pairwise_daysIn _) fun n d hd => (NaiveDate.day_withDay hd).1
    · intro d hd
      obtain ⟨n, hn, hnd⟩ := List.mem_filterMap.mp hd
      obtain ⟨hdDay, hdIndex⟩ := NaiveDate.day_withDay hnd
      obtain ⟨hlow, hhigh⟩ := monthIndex_spec d.day
      rw [hdIndex, hindex] at hlow hhigh
      have hnext : monthIndex anchor.day + (k * rule.interval : Nat) + 1 ≤
          monthIndex anchor.day + ((k + 1) * rule.interval : Nat) := by
        have := rule.interval_pos
        rw [Nat.succ_mul]
        omega
      have hle := monthBegin_le hnext
      unfold periodBegin
      rw [hfreq]
      dsimp only
      omega

theorem datesOfMonth_spec {year : Int} {m : Nat} {d : NaiveDate} (hd : d ∈ rule.datesOfMonth anchor year m) :
    1 ≤ m ∧ m ≤ 12 ∧ monthIndex d.day = 12 * year + (m - 1) := by
  unfold Rule.datesOfMonth at hd
  split at hd
  · cases hd
  · obtain ⟨n, -, hn⟩ := List.mem_filterMap.mp hd
    obtain ⟨-, hm, hm', -⟩ := NaiveDate.day_fromYmd hn
    exact ⟨hm, hm', (NaiveDate.monthIndex_fromYmd hn).2⟩

theorem pairwise_datesOfMonth (rule : Rule) (anchor : NaiveDate) (year : Int) (m : Nat) :
    (rule.datesOfMonth anchor year m).Pairwise (dateKey · < dateKey ·) := by
  unfold Rule.datesOfMonth
  split
  · exact List.Pairwise.nil
  · exact pairwise_filterMap_days (pairwise_daysIn _) fun n d hd => (NaiveDate.monthIndex_fromYmd hd).1

theorem pairwise_monthsOfYear (rule : Rule) (anchor : NaiveDate) : (rule.monthsOfYear anchor).Pairwise (· < ·) := by
  unfold Rule.monthsOfYear
  split
  · exact rule.byMonth_sorted
  · split
    · exact List.pairwise_lt_range'
    · exact List.pairwise_singleton _ _

theorem yearly_isPeriod {p : NaiveDate × List NaiveDate} (hfreq : rule.freq = .yearly)
    (h : rule.yearlyPeriod anchor (k * rule.interval) = some p) : IsPeriod rule anchor k p := by
  unfold Rule.yearlyPeriod at h
  split at h
  · cases h
  obtain ⟨first, hfirst, rfl⟩ := Option.map_eq_some_iff.mp h
  have hday : first.day = monthBegin (12 * (anchor.year + (k * rule.interval : Nat))) := by
    have := (NaiveDate.monthIndex_fromYmd hfirst).1
    rw [this]
    simp
  refine ⟨?_, ?_, ?_⟩
  · unfold periodBegin
    rw [hfreq]
    exact hday
  · refine List.pairwise_flatMap.mpr ⟨fun m _ => pairwise_datesOfMonth rule anchor _ m, ?_⟩
    refine (pairwise_monthsOfYear rule anchor).imp ?_
    intro a b hab x hx y hy
    obtain ⟨-, -, hx⟩ := datesOfMonth_spec hx
    obtain ⟨-, -, hy⟩ := datesOfMonth_spec hy
    unfold dateKey
    exact lt_of_monthIndex_lt (by omega)
  · intro d hd
    obtain ⟨m, -, hd⟩ := List.mem_flatMap.mp hd
    obtain ⟨hm, hm', hindex⟩ := datesOfMonth_spec hd
    obtain ⟨hlow, hhigh⟩ := monthIndex_spec d.day
    have hfrom := monthBegin_le (show 12 * (anchor.year + (k * rule.interval : Nat)) ≤ monthIndex d.day by omega)
    have hnext : monthIndex d.day + 1 ≤ 12 * (anchor.year + ((k + 1) * rule.interval : Nat)) := by
      have := rule.interval_pos
      rw [Nat.succ_mul]
      omega
    have hto := monthBegin_le hnext
    unfold periodBegin
    rw [hfreq]
    dsimp only
    omega

theorem period_isPeriod {p : NaiveDate × List NaiveDate} (h : rule.period anchor k = some p) : IsPeriod rule anchor k p := by
  unfold Rule.period at h
  split at h
  · cases h
  · cases hfreq : rule.freq <;> rw [hfreq] at h
    case daily => exact daily_isPeriod hfreq h
    case weekly => exact weekly_isPeriod hfreq h
    case monthly => exact monthly_isPeriod hfreq h
    case yearly => exact yearly_isPeriod hfreq h

/-! ## Where the periods end -/

theorem isSome_monthOf (date : NaiveDate) : (Month.of date.year date.month).isSome = true := by
  unfold Month.of
  rw [Option.isSome_map]
  exact NaiveDate.isSome_firstOfMonth date

theorem isSome_dailyPeriod {step : Nat} : (rule.dailyPeriod anchor step).isSome = true ↔
    step < 2 ^ 31 ∧ anchor.day + step ≤ maxDay := by
  rw [← NaiveDate.isSome_checkedAddDays]
  unfold Rule.dailyPeriod
  cases anchor.checkedAddDays step with
  | none => rfl
  | some day =>
    rw [Option.bind_some, Option.isSome_map]
    exact ⟨fun _ => rfl, fun _ => isSome_monthOf day⟩

theorem isSome_weeklyPeriod {step : Nat} : (rule.weeklyPeriod anchor step).isSome = true ↔
    ∃ week0, anchor.checkedSubDays (anchor.weekday.daysSince rule.wkst) = some week0 ∧
      step * 7 < 2 ^ 31 ∧ week0.day + (step * 7 : Nat) ≤ maxDay := by
  unfold Rule.weeklyPeriod
  cases anchor.checkedSubDays (anchor.weekday.daysSince rule.wkst) with
  | none => exact ⟨fun h => (nomatch h), fun ⟨_, h, _⟩ => (nomatch h)⟩
  | some week0 =>
    rw [Option.bind_some]
    have hdays := @NaiveDate.isSome_checkedAddDays week0 (step * 7)
    split
    next h =>
      refine ⟨fun hsome => (nomatch hsome), fun ⟨_, _, hlt, _⟩ => ?_⟩
      omega
    next h =>
      rw [Option.isSome_map, hdays]
      exact ⟨fun h => ⟨week0, rfl, h⟩, fun ⟨_, h, hrange⟩ => by cases h; exact hrange⟩

theorem isSome_monthlyPeriod {step : Nat} : (rule.monthlyPeriod anchor step).isSome = true ↔
    step < 2 ^ 31 ∧ monthBegin (monthIndex anchor.day + step) ≤ maxDay := by
  obtain ⟨begin, hbegin⟩ := Option.isSome_iff_exists.mp (NaiveDate.isSome_firstOfMonth anchor)
  obtain ⟨hday, hindex⟩ := NaiveDate.day_withDay hbegin
  have hmonths := @NaiveDate.isSome_checkedAddMonths begin step (by rw [hindex]; omega)
  rw [hindex] at hmonths
  have hlow : minDay ≤ monthBegin (monthIndex anchor.day + step) :=
    NaiveDate.minDay_le_monthBegin anchor.inRange.1 (by omega)
  unfold Rule.monthlyPeriod
  rw [show anchor.withDay 1 = some begin from hbegin, Option.bind_some]
  split
  next h => exact ⟨fun hsome => (nomatch hsome), fun hrange => by omega⟩
  next h =>
    cases hfirst : begin.checkedAddMonths step with
    | none =>
      rw [hfirst] at hmonths
      exact ⟨fun hsome => (nomatch hsome), fun hrange => hmonths.mpr ⟨hrange.1, hlow, hrange.2⟩⟩
    | some first =>
      have hrange := hmonths.mp (by rw [hfirst]; rfl)
      refine ⟨fun _ => ⟨hrange.1, hrange.2.2⟩, fun _ => ?_⟩
      rw [Option.bind_some]
      split
      · rfl
      · rw [Option.isSome_map]
        exact isSome_monthOf first

theorem isSome_yearlyPeriod {step : Nat} : (rule.yearlyPeriod anchor step).isSome = true ↔
    step < 2 ^ 31 ∧ monthBegin (12 * (anchor.year + step)) ≤ maxDay := by
  have hlow : minDay ≤ monthBegin (12 * (anchor.year + step)) := by
    rw [NaiveDate.minDay_eq]
    refine monthBegin_le ?_
    have hyear := monthIndex_le anchor.inRange.1
    rw [NaiveDate.minDay_eq, monthIndex_monthBegin] at hyear
    obtain ⟨hm, hm', -⟩ := monthOf_spec anchor.day
    unfold monthIndex at hyear
    unfold NaiveDate.year
    omega
  unfold Rule.yearlyPeriod
  split
  next h => exact ⟨fun hsome => (nomatch hsome), fun hrange => by omega⟩
  next h =>
    rw [Option.isSome_map, NaiveDate.isSome_fromYmd_first le_rfl (by decide),
      show 12 * (anchor.year + (step : Int)) + ((1 : Nat) - 1 : Int) = 12 * (anchor.year + step) by omega]
    exact ⟨fun hrange => ⟨by omega, hrange.2⟩, fun hrange => ⟨hlow, hrange.2⟩⟩

/-- Before a period there is every earlier one. -/
theorem isSome_period_of_le {j : Nat} (hjk : j ≤ k) (h : (rule.period anchor k).isSome = true) :
    (rule.period anchor j).isSome = true := by
  have hstep : j * rule.interval ≤ k * rule.interval := Nat.mul_le_mul_right _ hjk
  unfold Rule.period at h ⊢
  split at h
  · cases h
  next hsmall =>
    rw [if_neg (by omega)]
    cases hfreq : rule.freq <;> rw [hfreq] at h
    case daily =>
      obtain ⟨hlt, hle⟩ := isSome_dailyPeriod.mp h
      exact isSome_dailyPeriod.mpr ⟨by omega, by omega⟩
    case weekly =>
      obtain ⟨week0, hweek0, hlt, hle⟩ := isSome_weeklyPeriod.mp h
      exact isSome_weeklyPeriod.mpr ⟨week0, hweek0, by omega, by omega⟩
    case monthly =>
      obtain ⟨hlt, hle⟩ := isSome_monthlyPeriod.mp h
      exact isSome_monthlyPeriod.mpr ⟨by omega, (monthBegin_le (by omega)).trans hle⟩
    case yearly =>
      obtain ⟨hlt, hle⟩ := isSome_yearlyPeriod.mp h
      exact isSome_yearlyPeriod.mpr ⟨by omega, (monthBegin_le (by omega)).trans hle⟩

theorem period_eq_none_of_le {j : Nat} (hjk : j ≤ k) (h : rule.period anchor j = none) : rule.period anchor k = none := by
  by_contra hsome
  have := isSome_period_of_le hjk (Option.isSome_iff_ne_none.mpr hsome)
  rw [h] at this
  cases this

/-- More periods than there are dates. -/
def lastPeriod : Nat := 2 ^ 31

theorem period_eq_none_of_large (h : lastPeriod ≤ k) : rule.period anchor k = none := by
  by_contra hsome
  have hsome := Option.isSome_iff_ne_none.mpr hsome
  have hstep : 2 ^ 31 ≤ k * rule.interval := le_trans h (Nat.le_mul_of_pos_right k rule.interval_pos)
  unfold Rule.period at hsome
  split at hsome
  · cases hsome
  · cases hfreq : rule.freq <;> rw [hfreq] at hsome
    case daily => exact absurd (isSome_dailyPeriod.mp hsome).1 (by omega)
    case weekly =>
      obtain ⟨_, _, hlt, _⟩ := isSome_weeklyPeriod.mp hsome
      omega
    case monthly => exact absurd (isSome_monthlyPeriod.mp hsome).1 (by omega)
    case yearly => exact absurd (isSome_yearlyPeriod.mp hsome).1 (by omega)

/-! ## Occurrences -/

/-- The dates the periods from `k` on keep. -/
def datesFrom (rule : Rule) (anchor : NaiveDate) : Nat → Nat → List NaiveDate
  | 0, _ => []
  | fuel + 1, k =>
    match rule.period anchor k with
    | none => []
    | some (_, dates) => rule.atSetPositions dates ++ datesFrom rule anchor fuel (k + 1)

/-- The local starts after `start` that some dates give. -/
def startsOn (start : NaiveDateTime) (dates : List NaiveDate) : List NaiveDateTime :=
  (dates.map fun date => ⟨date, start.time⟩).filter fun wall => start < wall

/-- The occurrences of a rule after its start, from period `k` on, with no regard to its count and end. -/
def occurrencesFrom (rule : Rule) (start : NaiveDateTime) (k : Nat) : List NaiveDateTime :=
  startsOn start (datesFrom rule start.date (lastPeriod - k) k)

variable {start stop : NaiveDateTime}

theorem startsOn_append (start : NaiveDateTime) (xs ys : List NaiveDate) :
    startsOn start (xs ++ ys) = startsOn start xs ++ startsOn start ys := by
  unfold startsOn
  rw [List.map_append, List.filter_append]

theorem occurrencesFrom_of_none (h : rule.period start.date k = none) : occurrencesFrom rule start k = [] := by
  unfold occurrencesFrom
  cases lastPeriod - k with
  | zero => rfl
  | succ fuel =>
    rw [datesFrom, h]
    rfl

theorem occurrencesFrom_of_some {p : NaiveDate × List NaiveDate} (h : rule.period start.date k = some p) :
    occurrencesFrom rule start k = startsOn start (rule.atSetPositions p.2) ++ occurrencesFrom rule start (k + 1) := by
  have hlt : k < lastPeriod := by
    by_contra hle
    rw [period_eq_none_of_large (not_lt.mp hle)] at h
    cases h
  unfold occurrencesFrom
  rw [show lastPeriod - k = lastPeriod - (k + 1) + 1 by omega, datesFrom, h, startsOn_append]

theorem pairwise_atSetPositions {dates : List NaiveDate} (h : dates.Pairwise (dateKey · < dateKey ·)) :
    (rule.atSetPositions dates).Pairwise (dateKey · < dateKey ·) := by
  unfold Rule.atSetPositions
  split
  · exact h
  · exact pairwise_sortedBy _ _

theorem mem_of_mem_atSetPositions {dates : List NaiveDate} {d : NaiveDate} (h : d ∈ rule.atSetPositions dates) : d ∈ dates := by
  unfold Rule.atSetPositions at h
  split at h
  · exact h
  · obtain ⟨pos, -, hpos⟩ := List.mem_filterMap.mp (mem_of_mem_sortedBy h)
    split at hpos
    · exact List.mem_of_getElem? hpos
    · split at hpos
      · exact List.mem_of_getElem? hpos
      · cases hpos

theorem lt_iff_day {a b : NaiveDateTime} (h : a.time = b.time) : a < b ↔ a.date.day < b.date.day := by
  rw [NaiveDateTime.lt_iff]
  unfold NaiveDateTime.key
  rw [h]
  omega

theorem mem_startsOn {dates : List NaiveDate} {wall : NaiveDateTime} (h : wall ∈ startsOn start dates) :
    wall.date ∈ dates ∧ wall.time = start.time ∧ start < wall := by
  obtain ⟨hmem, hlt⟩ := List.mem_filter.mp h
  obtain ⟨date, hdate, rfl⟩ := List.mem_map.mp hmem
  exact ⟨hdate, rfl, of_decide_eq_true hlt⟩

theorem pairwise_startsOn {dates : List NaiveDate} (h : dates.Pairwise (dateKey · < dateKey ·)) :
    (startsOn start dates).Pairwise (· < ·) := by
  refine List.Pairwise.filter _ (List.pairwise_map.mpr (h.imp fun {a b} hab => ?_))
  exact (@lt_iff_day ⟨a, start.time⟩ ⟨b, start.time⟩ rfl).mpr hab

theorem mem_datesFrom {fuel : Nat} {d : NaiveDate} (h : d ∈ datesFrom rule anchor fuel k) :
    periodBegin rule anchor k ≤ d.day := by
  induction fuel generalizing k with
  | zero => cases h
  | succ fuel ih =>
    rw [datesFrom] at h
    cases hperiod : rule.period anchor k with
    | none =>
      rw [hperiod] at h
      cases h
    | some p =>
      rw [hperiod] at h
      have his := period_isPeriod hperiod
      rcases List.mem_append.mp h with h | h
      · rw [← his.begins]
        exact (his.within d (mem_of_mem_atSetPositions h)).1
      · exact (periodBegin_lt rule anchor (Nat.lt_succ_self k)).le.trans (ih h)

theorem mem_occurrencesFrom {wall : NaiveDateTime} (h : wall ∈ occurrencesFrom rule start k) :
    periodBegin rule start.date k ≤ wall.date.day ∧ wall.time = start.time ∧ start < wall := by
  obtain ⟨hdate, htime, hlt⟩ := mem_startsOn h
  exact ⟨mem_datesFrom hdate, htime, hlt⟩

theorem pairwise_datesFrom (rule : Rule) (anchor : NaiveDate) (fuel k : Nat) :
    (datesFrom rule anchor fuel k).Pairwise (dateKey · < dateKey ·) := by
  induction fuel generalizing k with
  | zero => exact List.Pairwise.nil
  | succ fuel ih =>
    rw [datesFrom]
    cases hperiod : rule.period anchor k with
    | none => exact List.Pairwise.nil
    | some p =>
      have his := period_isPeriod hperiod
      refine List.pairwise_append.mpr ⟨pairwise_atSetPositions his.sorted, ih (k + 1), fun a ha b hb => ?_⟩
      exact lt_of_lt_of_le (his.within a (mem_of_mem_atSetPositions ha)).2 (mem_datesFrom hb)

/-- The occurrences of a rule are in order. -/
theorem pairwise_occurrencesFrom (rule : Rule) (start : NaiveDateTime) (k : Nat) :
    (occurrencesFrom rule start k).Pairwise (· < ·) :=
  pairwise_startsOn (pairwise_datesFrom rule start.date _ k)

/-! ## Visits -/

variable {S : Type} {visit : S → NaiveDateTime → S × Bool}

/-- Visits in order, until the visitor ends them. -/
def visitAll (visit : S → NaiveDateTime → S × Bool) : S → List NaiveDateTime → S × Bool
  | s, [] => (s, true)
  | s, wall :: rest => if (visit s wall).2 then visitAll visit (visit s wall).1 rest else visit s wall

/-- What the count leaves, when some occurrences were produced. -/
def limit (rule : Rule) (produced : Nat) (walls : List NaiveDateTime) : List NaiveDateTime :=
  match rule.count with
  | none => walls
  | some count => walls.take (count - produced)

theorem limit_of_reached {produced : Nat} (h : rule.count.any (· ≤ produced) = true) (walls : List NaiveDateTime) :
    limit rule produced walls = [] := by
  unfold limit
  cases hcount : rule.count with
  | none =>
    rw [hcount] at h
    cases h
  | some count =>
    rw [hcount] at h
    have hle : count ≤ produced := of_decide_eq_true h
    dsimp only
    rw [Nat.sub_eq_zero_of_le hle, List.take_zero]

theorem limit_cons {produced : Nat} (h : ¬rule.count.any (· ≤ produced) = true) (wall : NaiveDateTime)
    (walls : List NaiveDateTime) : limit rule produced (wall :: walls) = wall :: limit rule (produced + 1) walls := by
  unfold limit
  cases hcount : rule.count with
  | none => rfl
  | some count =>
    rw [hcount] at h
    have hlt : ¬count ≤ produced := fun hle => h (decide_eq_true hle)
    dsimp only
    rw [show count - produced = count - (produced + 1) + 1 by omega, List.take_succ_cons]

theorem limit_nil (rule : Rule) (produced : Nat) : limit rule produced [] = [] := by
  unfold limit
  split
  · rfl
  · exact List.take_nil

/-- The occurrences a walk visits: up to the count, and to `stop`. -/
def upTo (rule : Rule) (stop : NaiveDateTime) (produced : Nat) (walls : List NaiveDateTime) : List NaiveDateTime :=
  (limit rule produced walls).takeWhile fun wall => wall ≤ stop

theorem startsOn_cons (start : NaiveDateTime) (date : NaiveDate) (dates : List NaiveDate) :
    startsOn start (date :: dates) =
      if start < ⟨date, start.time⟩ then ⟨date, start.time⟩ :: startsOn start dates else startsOn start dates := by
  unfold startsOn
  rw [List.map_cons, List.filter_cons]
  simp only [decide_eq_true_eq]

theorem upTo_of_reached {produced : Nat} (h : rule.count.any (· ≤ produced) = true) (walls : List NaiveDateTime) :
    upTo rule stop produced walls = [] := by
  unfold upTo
  rw [limit_of_reached h, List.takeWhile_nil]

theorem upTo_of_past {produced : Nat} {wall : NaiveDateTime} (h : stop < wall) (walls : List NaiveDateTime) :
    upTo rule stop produced (wall :: walls) = [] := by
  by_cases hcount : rule.count.any (· ≤ produced) = true
  · exact upTo_of_reached hcount _
  · unfold upTo
    rw [limit_cons hcount, List.takeWhile_cons_of_neg]
    simpa using h

theorem upTo_cons {produced : Nat} {wall : NaiveDateTime} (hcount : ¬rule.count.any (· ≤ produced) = true)
    (h : ¬stop < wall) (walls : List NaiveDateTime) :
    upTo rule stop produced (wall :: walls) = wall :: upTo rule stop (produced + 1) walls := by
  unfold upTo
  rw [limit_cons hcount, List.takeWhile_cons_of_pos]
  simpa using h

/-- The dates of a period on which a walk goes on: the visitor went through their starts. -/
theorem visitDates_more {s s' : S} {produced produced' : Nat} {dates : List NaiveDate} (rest : List NaiveDateTime)
    (h : Rule.visitDates visit rule start stop s produced dates = (s', some produced')) :
    visitAll visit s (upTo rule stop produced (startsOn start dates ++ rest)) =
      visitAll visit s' (upTo rule stop produced' rest) := by
  induction dates generalizing s produced with
  | nil =>
    cases h
    rfl
  | cons date dates ih =>
    unfold Rule.visitDates at h
    dsimp only at h
    rw [startsOn_cons]
    split at h
    next hle => rw [if_neg (not_lt.mpr hle), ih h]
    next hle =>
      split at h
      · cases h
      next hin =>
        obtain ⟨hstop, hcount⟩ := not_or.mp hin
        split at h
        next hmore =>
          rw [if_pos (not_le.mp hle), List.cons_append,
            upTo_cons hcount hstop, visitAll, if_pos hmore, ih h]
        · cases h

/-- The dates of a period on which a walk ends. -/
theorem visitDates_done {s s' : S} {produced : Nat} {dates : List NaiveDate} (rest : List NaiveDateTime)
    (h : Rule.visitDates visit rule start stop s produced dates = (s', none)) :
    (visitAll visit s (upTo rule stop produced (startsOn start dates ++ rest))).1 = s' := by
  induction dates generalizing s produced with
  | nil => cases h
  | cons date dates ih =>
    unfold Rule.visitDates at h
    dsimp only at h
    rw [startsOn_cons]
    split at h
    next hle => rw [if_neg (not_lt.mpr hle), ih h]
    next hle =>
      rw [if_pos (not_le.mp hle), List.cons_append]
      split at h
      next hout =>
        cases h
        rcases hout with hstop | hcount
        · rw [upTo_of_past hstop, visitAll]
        · rw [upTo_of_reached hcount, visitAll]
      next hin =>
        obtain ⟨hstop, hcount⟩ := not_or.mp hin
        rw [upTo_cons hcount hstop, visitAll]
        split at h
        next hmore => rw [if_pos hmore, ih h]
        next hmore =>
          cases h
          rw [if_neg hmore]

/-- Occurrences of a period that begins past `stop` are past it. -/
theorem upTo_of_late {produced : Nat} {p : NaiveDate × List NaiveDate} (hperiod : rule.period start.date k = some p)
    (hlate : stop.date.day < p.1.day) : upTo rule stop produced (occurrencesFrom rule start k) = [] := by
  cases hwalls : occurrencesFrom rule start k with
  | nil =>
    unfold upTo
    rw [limit_nil, List.takeWhile_nil]
  | cons wall walls =>
    refine upTo_of_past ?_ walls
    have hmem : wall ∈ occurrencesFrom rule start k := hwalls ▸ List.mem_cons_self
    have hday := (mem_occurrencesFrom hmem).1
    rw [← (period_isPeriod hperiod).begins] at hday
    have hstop := stop.time.frac.isLt
    have hstop' := stop.time.secs.isLt
    rw [NaiveDateTime.lt_iff]
    unfold NaiveDateTime.key
    omega

/-- A walk that its budget did not end has visited the occurrences from its period on. -/
theorem walkFrom_spec {fuel budget produced : Nat} {s : S}
    (h : (Rule.walkFrom visit rule start stop fuel s budget produced k).done = true) :
    (Rule.walkFrom visit rule start stop fuel s budget produced k).state =
      (visitAll visit s (upTo rule stop produced (occurrencesFrom rule start k))).1 := by
  induction fuel generalizing s budget produced k with
  | zero => cases h
  | succ fuel ih =>
    unfold Rule.walkFrom at h ⊢
    dsimp only at h ⊢
    split
    next hcount => rw [upTo_of_reached hcount, visitAll]
    next hcount =>
      rw [if_neg hcount] at h
      split
      next hpaid =>
        rw [if_pos hpaid] at h
        cases h
      next hpaid =>
        rw [if_neg hpaid] at h
        cases hperiod : rule.period start.date k with
        | none =>
          rw [occurrencesFrom_of_none hperiod]
          unfold upTo
          rw [limit_nil, List.takeWhile_nil, visitAll]
        | some p =>
          rw [hperiod] at h
          dsimp only at h ⊢
          split
          next hlate => rw [upTo_of_late hperiod hlate, visitAll]
          next hlate =>
            rw [if_neg hlate] at h
            split
            next hpaid' =>
              rw [if_pos hpaid'] at h
              cases h
            next hpaid' =>
              rw [if_neg hpaid'] at h
              rw [occurrencesFrom_of_some hperiod]
              cases hvisit : Rule.visitDates visit rule start stop s produced (rule.atSetPositions p.2) with
              | mk s' more =>
                rw [hvisit] at h
                cases more with
                | none => exact (visitDates_done _ hvisit).symm
                | some produced' =>
                  rw [visitDates_more _ hvisit]
                  exact ih h

/-- The occurrences a walk goes through, without regard to its budget. -/
def visited (rule : Rule) (start : NaiveDateTime) (after : Option NaiveDate) (stop : NaiveDateTime) : List NaiveDateTime :=
  if rule.firstPeriod start after = 0 then start :: upTo rule stop 1 (occurrencesFrom rule start 0)
  else upTo rule stop 0 (occurrencesFrom rule start (rule.firstPeriod start after))

theorem walk_spec {after : Option NaiveDate} {s : S} {budget : Nat}
    (h : (rule.walk visit start after stop s budget).done = true) :
    (rule.walk visit start after stop s budget).state = (visitAll visit s (visited rule start after stop)).1 := by
  unfold Rule.walk at h ⊢
  unfold visited
  dsimp only at h ⊢
  split
  next hfirst =>
    rw [if_pos hfirst] at h
    rw [visitAll]
    split
    next hmore =>
      rw [if_pos hmore] at h
      exact walkFrom_spec h
    · rfl
  next hfirst =>
    rw [if_neg hfirst] at h
    exact walkFrom_spec h

/-- A visitor that keeps every occurrence. -/
def collect (walls : List NaiveDateTime) (wall : NaiveDateTime) : List NaiveDateTime × Bool := (walls ++ [wall], true)

theorem visitAll_collect (seen walls : List NaiveDateTime) : visitAll collect seen walls = (seen ++ walls, true) := by
  induction walls generalizing seen with
  | nil => rw [visitAll, List.append_nil]
  | cons wall rest ih => simp [visitAll, collect, ih]

theorem walk_collect {after : Option NaiveDate} {budget : Nat}
    (h : (rule.walk collect start after stop [] budget).done = true) :
    (rule.walk collect start after stop [] budget).state = visited rule start after stop := by
  rw [walk_spec h, visitAll_collect, List.nil_append]

/-! ## What a walk leaves out -/

/-- The occurrences of a rule, the start first, with no regard to its end. -/
def occurrences (rule : Rule) (start : NaiveDateTime) : List NaiveDateTime :=
  start :: limit rule 1 (occurrencesFrom rule start 0)

theorem limit_sublist (rule : Rule) (produced : Nat) (walls : List NaiveDateTime) :
    (limit rule produced walls).Sublist walls := by
  unfold limit
  split
  · exact List.Sublist.refl walls
  · exact List.take_sublist _ _

theorem pairwise_occurrences (rule : Rule) (start : NaiveDateTime) : (occurrences rule start).Pairwise (· < ·) := by
  refine List.pairwise_cons.mpr ⟨fun wall hwall => ?_, ?_⟩
  · exact (mem_occurrencesFrom ((limit_sublist rule 1 _).subset hwall)).2.2
  · exact (pairwise_occurrencesFrom rule start 0).sublist (limit_sublist rule 1 _)

/-- The periods before a later one come first, and end before it begins. -/
theorem occurrencesFrom_split (rule : Rule) (start : NaiveDateTime) (k n : Nat) :
    ∃ earlier, occurrencesFrom rule start k = earlier ++ occurrencesFrom rule start (k + n) ∧
      ∀ wall ∈ earlier, wall.date.day < periodBegin rule start.date (k + n) := by
  induction n with
  | zero => exact ⟨[], rfl, fun _ h => nomatch h⟩
  | succ n ih =>
    obtain ⟨earlier, hsplit, hearlier⟩ := ih
    have hnext := periodBegin_lt rule start.date (show k + n < k + (n + 1) by omega)
    cases hperiod : rule.period start.date (k + n) with
    | none =>
      have hperiod' := period_eq_none_of_le (show k + n ≤ k + (n + 1) by omega) hperiod
      refine ⟨earlier, ?_, fun wall hwall => (hearlier wall hwall).trans hnext⟩
      rw [hsplit, occurrencesFrom_of_none hperiod, occurrencesFrom_of_none hperiod']
    | some p =>
      refine ⟨earlier ++ startsOn start (rule.atSetPositions p.2), ?_, fun wall hwall => ?_⟩
      · rw [hsplit, occurrencesFrom_of_some hperiod, List.append_assoc]
        rfl
      · rcases List.mem_append.mp hwall with hwall | hwall
        · exact (hearlier wall hwall).trans hnext
        · exact ((period_isPeriod hperiod).within _ (mem_of_mem_atSetPositions (mem_startsOn hwall).1)).2

theorem periodsBefore_mul {elapsed : Int} {interval n : Nat} (hn : n = (elapsed.tdiv interval - 1).toNat) (hpos : 0 < n)
    (hinterval : 1 ≤ interval) : ((n * interval : Nat) : Int) + interval ≤ elapsed := by
  have hquotient : (n : Int) + 1 = elapsed.tdiv interval := by omega
  have helapsed : 0 ≤ elapsed := by
    by_contra hneg
    have hback := Int.tdiv_nonneg (show 0 ≤ -elapsed by omega) (show (0 : Int) ≤ interval by omega)
    rw [Int.neg_tdiv] at hback
    omega
  rw [Int.tdiv_eq_ediv_of_nonneg helapsed] at hquotient
  have hmul := Int.ediv_mul_le elapsed (show (interval : Int) ≠ 0 by omega)
  rw [← hquotient, Int.add_mul, Int.one_mul] at hmul
  rw [Nat.cast_mul]
  exact hmul

/-- What is skipped ends before the date it was given, which is after the start. -/
theorem periodBegin_periodsBefore {after : NaiveDate} (hpos : 0 < rule.periodsBefore anchor after) :
    periodBegin rule anchor (rule.periodsBefore anchor after) ≤ after.day ∧ anchor.day < after.day := by
  have hinterval := rule.interval_pos
  have hafter := monthIndex_spec after.day
  have hmonth := monthOf_spec after.day
  have hanchor := monthOf_spec anchor.day
  generalize hn : rule.periodsBefore anchor after = n at hpos ⊢
  unfold Rule.periodsBefore at hn
  unfold periodBegin
  have hn' := periodsBefore_mul hn.symm hpos hinterval
  cases hfreq : rule.freq <;> rw [hfreq] at hn' <;> dsimp only at hn' ⊢
  case daily => omega
  case weekly =>
    have hdays : 0 ≤ after.day - anchor.day := by
      by_contra hneg
      have hback := Int.tdiv_nonneg (show 0 ≤ -(after.day - anchor.day) by omega) (show (0 : Int) ≤ 7 by omega)
      rw [Int.neg_tdiv] at hback
      omega
    rw [Int.tdiv_eq_ediv_of_nonneg hdays] at hn'
    omega
  case monthly =>
    have hindex : monthIndex anchor.day + (n * rule.interval : Nat) + 1 ≤ monthIndex after.day := by
      unfold monthIndex
      unfold NaiveDate.year NaiveDate.month at hn'
      omega
    exact ⟨(monthBegin_le (by omega)).trans hafter.1, lt_of_monthIndex_lt (by omega)⟩
  case yearly =>
    have hindex : 12 * (anchor.year + (n * rule.interval : Nat)) ≤ monthIndex after.day ∧
        monthIndex anchor.day < monthIndex after.day := by
      unfold monthIndex
      unfold NaiveDate.year at hn' ⊢
      omega
    exact ⟨(monthBegin_le hindex.1).trans hafter.1, lt_of_monthIndex_lt hindex.2⟩

theorem firstPeriod_pos {after : Option NaiveDate} (h : rule.firstPeriod start after ≠ 0) :
    rule.count = none ∧ ∃ date, after = some date ∧ rule.firstPeriod start after = rule.periodsBefore start.date date := by
  unfold Rule.firstPeriod at h ⊢
  cases hcount : rule.count with
  | some count =>
    rw [hcount] at h
    exact absurd rfl h
  | none =>
    cases after with
    | none =>
      rw [hcount] at h
      exact absurd rfl h
    | some date => exact ⟨rfl, date, rfl, rfl⟩

/-- What is left after the last occurrence up to `stop` is past it. -/
theorem mem_dropWhile {walls : List NaiveDateTime} (hsorted : walls.Pairwise (· < ·)) {wall : NaiveDateTime}
    (h : wall ∈ walls.dropWhile fun wall => wall ≤ stop) : stop < wall := by
  induction walls with
  | nil => cases h
  | cons first walls ih =>
    obtain ⟨hfirst, hwalls⟩ := List.pairwise_cons.mp hsorted
    rw [List.dropWhile_cons] at h
    split at h
    · exact ih hwalls h
    next hpast =>
      have hstop : stop < first := by simpa using hpast
      rcases List.mem_cons.mp h with rfl | h
      · exact hstop
      · exact hstop.trans (hfirst wall h)

theorem mem_takeWhile {walls : List NaiveDateTime} (hsorted : walls.Pairwise (· < ·)) {t : NaiveDateTime} :
    (t ∈ walls.takeWhile fun wall => wall ≤ stop) ↔ t ∈ walls ∧ t ≤ stop := by
  constructor
  · intro h
    exact ⟨(List.takeWhile_subset _) h, by simpa using List.mem_takeWhile_imp h⟩
  · rintro ⟨hmem, hle⟩
    rw [← List.takeWhile_append_dropWhile (l := walls) (p := fun wall => wall ≤ stop)] at hmem
    rcases List.mem_append.mp hmem with hmem | hmem
    · exact hmem
    · exact absurd (mem_dropWhile hsorted hmem) (not_lt.mpr hle)

/-- The walk visits the occurrences of the rule, but for those before the date it was given and those past its end. -/
theorem occurrences_eq (rule : Rule) (start : NaiveDateTime) (after : Option NaiveDate) (stop : NaiveDateTime) :
    ∃ skipped past, occurrences rule start = skipped ++ visited rule start after stop ++ past ∧
      (∀ wall ∈ skipped, ∃ date, after = some date ∧ wall.date.day < date.day) ∧
      ∀ wall ∈ past, stop < wall ∧ start < wall := by
  have hsorted := pairwise_occurrencesFrom rule start
  unfold occurrences visited upTo
  by_cases hfirst : rule.firstPeriod start after = 0
  · rw [if_pos hfirst]
    refine ⟨[], (limit rule 1 (occurrencesFrom rule start 0)).dropWhile fun wall => wall ≤ stop, ?_,
      fun _ h => (nomatch h), fun wall hwall => ?_⟩
    · rw [List.nil_append, List.cons_append, List.takeWhile_append_dropWhile]
    · have hmem := (limit_sublist rule 1 _).subset ((List.dropWhile_sublist _).subset hwall)
      exact ⟨mem_dropWhile ((hsorted 0).sublist (limit_sublist rule 1 _)) hwall, (mem_occurrencesFrom hmem).2.2⟩
  · rw [if_neg hfirst]
    obtain ⟨hcount, date, rfl, heq⟩ := firstPeriod_pos hfirst
    have hlimit : ∀ produced walls, limit rule produced walls = walls := by
      intro produced walls
      unfold limit
      rw [hcount]
    obtain ⟨hbegin, hstart⟩ := periodBegin_periodsBefore (Nat.pos_of_ne_zero (heq ▸ hfirst))
    obtain ⟨earlier, hsplit, hearlier⟩ := occurrencesFrom_split rule start 0 (rule.firstPeriod start (some date))
    rw [Nat.zero_add] at hsplit hearlier
    rw [← heq] at hbegin
    refine ⟨start :: earlier,
      (occurrencesFrom rule start (rule.firstPeriod start (some date))).dropWhile fun wall => wall ≤ stop, ?_, ?_,
      fun wall hwall => ?_⟩
    · rw [hlimit, hlimit, hsplit, List.append_assoc, List.takeWhile_append_dropWhile]
      rfl
    · intro wall hwall
      refine ⟨date, rfl, ?_⟩
      rcases List.mem_cons.mp hwall with rfl | hwall
      · exact hstart
      · exact lt_of_lt_of_le (hearlier wall hwall) hbegin
    · have hmem := (List.dropWhile_sublist _).subset hwall
      exact ⟨mem_dropWhile (hsorted _) hwall, (mem_occurrencesFrom hmem).2.2⟩

theorem visited_sublist (rule : Rule) (start : NaiveDateTime) (after : Option NaiveDate) (stop : NaiveDateTime) :
    (visited rule start after stop).Sublist (occurrences rule start) := by
  obtain ⟨skipped, past, hsplit, -, -⟩ := occurrences_eq rule start after stop
  rw [hsplit]
  exact (List.sublist_append_right _ _).trans (List.sublist_append_left _ _)

theorem time_occurrences {wall : NaiveDateTime} (h : wall ∈ occurrences rule start) :
    wall.time = start.time ∧ start ≤ wall := by
  rcases List.mem_cons.mp h with rfl | h
  · exact ⟨rfl, le_rfl⟩
  · obtain ⟨-, htime, hlt⟩ := mem_occurrencesFrom ((limit_sublist rule 1 _).subset h)
    exact ⟨htime, hlt.le⟩

theorem mem_visited {after : Option NaiveDate} {wall : NaiveDateTime} (h : wall ∈ visited rule start after stop) :
    wall = start ∨ wall ≤ stop := by
  have hupTo : ∀ {produced walls}, wall ∈ upTo rule stop produced walls → wall ≤ stop := by
    intro produced walls hwall
    simpa using List.mem_takeWhile_imp hwall
  unfold visited at h
  split at h
  · rcases List.mem_cons.mp h with h | h
    · exact Or.inl h
    · exact Or.inr (hupTo h)
  · exact Or.inr (hupTo h)

/-! ## The fuel of a walk -/

theorem charge_lt {budget steps : Nat} (hsteps : 1 ≤ steps) (h : ¬(!(charge budget steps).2) = true) :
    (charge budget steps).1 < budget := by
  unfold charge at h ⊢
  split
  · dsimp only
    omega
  next hlt =>
    rw [if_neg hlt] at h
    exact absurd rfl h

theorem charge_le (budget steps : Nat) : (charge budget steps).1 ≤ budget := by
  unfold charge
  split
  · exact Nat.sub_le budget steps
  · exact Nat.zero_le budget

theorem periodCost_pos (rule : Rule) : 1 ≤ rule.periodCost := by
  unfold Rule.periodCost
  rw [Nat.add_assoc, Nat.add_assoc]
  exact Nat.le_add_right 1 _

/-- Every period costs a step, so fuel beyond the budget is never used up. -/
theorem walkFrom_fuel {fuel fuel' budget produced : Nat} {s : S} (h : budget < fuel) (h' : budget < fuel') :
    Rule.walkFrom visit rule start stop fuel s budget produced k =
      Rule.walkFrom visit rule start stop fuel' s budget produced k := by
  induction fuel generalizing fuel' s budget produced k with
  | zero => omega
  | succ fuel ih =>
    cases fuel' with
    | zero => omega
    | succ fuel' =>
      unfold Rule.walkFrom
      dsimp only
      split
      · rfl
      · split
        · rfl
        next hpaid =>
          have hlt := charge_lt (periodCost_pos rule) hpaid
          cases rule.period start.date k with
          | none => rfl
          | some p =>
            have hle := charge_le (charge budget rule.periodCost).1 p.2.length
            dsimp only
            split
            · rfl
            · split
              · rfl
              · cases Rule.visitDates visit rule start stop s produced (rule.atSetPositions p.2) with
                | mk s' more =>
                  cases more with
                  | none => rfl
                  | some produced' => exact ih (by omega) (by omega)

end RecurrenceWalk
