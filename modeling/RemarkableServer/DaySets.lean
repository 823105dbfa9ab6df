import Mathlib.Data.Nat.Bitwise
import RemarkableServer.Recurrence

/-!
# Days of a month as bits

The set of days that a rule selects in a month is a number, one bit a day. Here its bits are
read: the days counted from either end, the weekdays and the `n`th of them.
-/
namespace DaySets

open Civil Chrono Recurrence

variable {month : Month} {d : Nat}

/-- A day of the month. -/
def IsDay (month : Month) (d : Nat) : Prop := 1 ≤ d ∧ d ≤ month.len

/-- The number of a day, from the start or, negative, from the end. -/
def NumberedDay (month : Month) (n : Int) (d : Nat) : Prop := n = d ∨ n = d - (month.len + 1 : Int)

/-- A day of a weekday; with an ordinal other than 0, the `n`th of them from the start or, negative, from the end. -/
def OrdinalDay (month : Month) (n : Int) (wd : Weekday) (d : Nat) : Prop :=
  (d - 1) % 7 = wd.daysSince month.first ∧
    (n = 0 ∨ n = ((d - 1) / 7 + 1 : Nat) ∨ n = -((month.len - d) / 7 + 1 : Nat))

theorem testBit_one_shiftLeft (i : Nat) : (1 <<< i).testBit d = decide (i = d) := by
  simp [Nat.one_shiftLeft, Nat.testBit_two_pow]

/-- The bits of many sets together. -/
theorem testBit_foldl_or {T : Type} (f : T → Nat) (items : List T) (days : Nat) :
    (items.foldl (fun days item => days ||| f item) days).testBit d =
      (days.testBit d || items.any fun item => (f item).testBit d) := by
  induction items generalizing days with
  | nil => simp
  | cons item items ih => simp [ih, Nat.testBit_or, Bool.or_assoc]

theorem mem_daysIn {set : DaySet} : d ∈ daysIn set ↔ (1 ≤ d ∧ d ≤ 31) ∧ set.testBit d = true := by
  simp [daysIn]
  omega

theorem testBit_all (hlen : month.len ≤ 31) : month.all.testBit d = true ↔ IsDay month d := by
  rw [Month.all, Nat.testBit_shiftLeft, Nat.testBit_shiftRight, Nat.testBit_two_pow_sub_one]
  simp only [ge_iff_le, Bool.and_eq_true, decide_eq_true_eq, IsDay]
  omega

theorem testBit_weekdaysFrom (fuel day : Nat) (days : DaySet) :
    (month.weekdaysFrom fuel day days).testBit d = true ↔
      days.testBit d = true ∨ (day ≤ d ∧ d ≤ month.len ∧ (d - day) % 7 = 0 ∧ (d - day) / 7 < fuel) := by
  induction fuel generalizing day days with
  | zero => simp [Month.weekdaysFrom]
  | succ fuel ih =>
    rw [Month.weekdaysFrom]
    split
    next hday =>
      rw [ih, Nat.testBit_or, testBit_one_shiftLeft]
      simp only [Bool.or_eq_true, decide_eq_true_eq, or_assoc]
      apply or_congr_right
      omega
    next hday =>
      have hnone : ¬(day ≤ d ∧ d ≤ month.len ∧ (d - day) % 7 = 0 ∧ (d - day) / 7 < fuel + 1) := by omega
      exact (or_iff_left hnone).symm

theorem testBit_weekdays (wd : Weekday) :
    (month.weekdays wd).testBit d = true ↔ IsDay month d ∧ OrdinalDay month 0 wd d := by
  have hlt := wd.daysSince_lt month.first
  rw [Month.weekdays, testBit_weekdaysFrom]
  simp [IsDay, OrdinalDay]
  omega

theorem day_eq_some (n : Int) : month.day n = some d ↔ IsDay month d ∧ NumberedDay month n d := by
  simp only [Month.day, IsDay, NumberedDay]
  split
  · simp
    omega
  · simp
    omega

theorem nthWeekday_eq_some {n : Int} (hn : n ≠ 0) (hlen : 28 ≤ month.len) (wd : Weekday) :
    month.nthWeekday n wd = some d ↔ IsDay month d ∧ OrdinalDay month n wd d := by
  have hlt := wd.daysSince_lt month.first
  simp only [Month.nthWeekday, IsDay, OrdinalDay]
  generalize wd.daysSince month.first = since at hlt ⊢
  have hone : ∀ index, (if index < (month.len - (1 + since)) / 7 + 1 then some (1 + since + 7 * index) else none) = some d ↔
      index = (d - 1) / 7 ∧ (1 ≤ d ∧ d ≤ month.len) ∧ (d - 1) % 7 = since := by
    intro index
    split
    · simp
      omega
    · simp
      omega
  by_cases hpos : 1 ≤ n
  · simp only [if_pos hpos, Option.bind_some, hone]
    omega
  · simp only [if_neg hpos, if_neg hn]
    split
    · simp only [Option.bind_some, hone]
      omega
    · simp
      omega

/-! ## The days a rule selects -/

/-- The days of a month that a rule's `BYMONTHDAY` and `BYDAY` select; a default when it has neither. -/
def SelectedDay (rule : Rule) (month : Month) (defaultDay d : Nat) : Prop :=
  (rule.byMonthDay = [] → rule.byDay = [] → d = defaultDay) ∧
    (rule.byMonthDay ≠ [] → ∃ n ∈ rule.byMonthDay, NumberedDay month n d) ∧
    (rule.byDay ≠ [] → ∃ item ∈ rule.byDay, OrdinalDay month item.1 item.2 d)

theorem testBit_elim (day : Option Nat) : (day.elim 0 (1 <<< ·)).testBit d = true ↔ day = some d := by
  cases day with
  | none => simp
  | some day => simp only [Option.elim_some, testBit_one_shiftLeft, decide_eq_true_eq, Option.some.injEq]

theorem testBit_monthDays (hlen : month.len ≤ 31) (ns : List Int) :
    (ns.foldl (fun days n => days ||| (month.day n).elim 0 (1 <<< ·)) (if ns.isEmpty then month.all else 0)).testBit d =
        true ↔
      IsDay month d ∧ (ns ≠ [] → ∃ n ∈ ns, NumberedDay month n d) := by
  rw [testBit_foldl_or]
  simp only [Bool.or_eq_true, List.any_eq_true, testBit_elim, day_eq_some]
  cases ns with
  | nil => simp [testBit_all hlen]
  | cons n ns =>
    simp only [List.isEmpty_cons, Bool.false_eq_true, if_false, Nat.zero_testBit, false_or, ne_eq, reduceCtorEq,
      not_false_eq_true, true_imp_iff]
    constructor
    · rintro ⟨m, hm, hday, hnumber⟩
      exact ⟨hday, m, hm, hnumber⟩
    · rintro ⟨hday, m, hm, hnumber⟩
      exact ⟨m, hm, hday, hnumber⟩

theorem testBit_byDay (hlen : 28 ≤ month.len) (n : Int) (wd : Weekday) :
    (if n = 0 then month.weekdays wd else (month.nthWeekday n wd).elim 0 (1 <<< ·)).testBit d = true ↔
      IsDay month d ∧ OrdinalDay month n wd d := by
  split
  next h => rw [testBit_weekdays, h]
  next h => rw [testBit_elim, nthWeekday_eq_some h hlen]

theorem testBit_weekDays (hlen : 28 ≤ month.len ∧ month.len ≤ 31) (items : List (Int × Weekday)) :
    (items.foldl
        (fun days (n, wd) => days ||| if n = 0 then month.weekdays wd else (month.nthWeekday n wd).elim 0 (1 <<< ·))
        (if items.isEmpty then month.all else 0)).testBit d = true ↔
      IsDay month d ∧ (items ≠ [] → ∃ item ∈ items, OrdinalDay month item.1 item.2 d) := by
  have hfold := testBit_foldl_or (fun item : Int × Weekday =>
    if item.1 = 0 then month.weekdays item.2 else (month.nthWeekday item.1 item.2).elim 0 (1 <<< ·)) items
    (if items.isEmpty then month.all else 0) (d := d)
  rw [hfold]
  simp only [Bool.or_eq_true, List.any_eq_true, testBit_byDay hlen.1]
  cases items with
  | nil => simp [testBit_all hlen.2]
  | cons item items =>
    simp only [List.isEmpty_cons, Bool.false_eq_true, if_false, Nat.zero_testBit, false_or, ne_eq, reduceCtorEq,
      not_false_eq_true, true_imp_iff]
    constructor
    · rintro ⟨x, hx, hday, hordinal⟩
      exact ⟨hday, x, hx, hordinal⟩
    · rintro ⟨hday, x, hx, hordinal⟩
      exact ⟨x, hx, hday, hordinal⟩

theorem testBit_daysOfMonth {rule : Rule} (hlen : 28 ≤ month.len ∧ month.len ≤ 31) (defaultDay : Nat) :
    (rule.daysOfMonth month defaultDay).testBit d = true ↔ IsDay month d ∧ SelectedDay rule month defaultDay d := by
  unfold Rule.daysOfMonth SelectedDay
  split
  next h =>
    simp only [Bool.and_eq_true, List.isEmpty_iff] at h
    simp only [h.1, h.2, ne_eq, not_true_eq_false, false_imp_iff, true_imp_iff, and_true]
    split
    next hday =>
      rw [testBit_one_shiftLeft, decide_eq_true_eq]
      constructor
      · rintro rfl
        exact ⟨hday, rfl⟩
      · exact fun hd => hd.2.symm
    next hday =>
      rw [Nat.zero_testBit]
      constructor
      · intro hfalse
        cases hfalse
      · rintro ⟨hd, rfl⟩
        exact absurd hd hday
  next h =>
    have hsome : rule.byMonthDay = [] → rule.byDay = [] → d = defaultDay := by
      intro hmonthDay hday
      exact absurd (by simp [hmonthDay, hday]) h
    dsimp only
    rw [Nat.testBit_and, Bool.and_eq_true, testBit_monthDays hlen.2, testBit_weekDays hlen]
    constructor
    · rintro ⟨⟨hd, hnumber⟩, -, hordinal⟩
      exact ⟨hd, hsome, hnumber, hordinal⟩
    · rintro ⟨hd, -, hnumber, hordinal⟩
      exact ⟨⟨hd, hnumber⟩, hd, hordinal⟩

end DaySets
