import Mathlib.Data.Char
import RemarkableServer.Lib.RustText
import RemarkableServer.Lib.Chrono
import RemarkableServer.Lib.SortDedup

/-!
# Recurrence rules

`calendar/recurrence.rs`: the rules of RFC 5545 that are supported, the dates a rule selects
in one of its periods, and the walk over its occurrences, paid for in steps of a budget.
-/
namespace Recurrence

open RustText Civil Chrono SortDedup

inductive Freq where
  | daily | weekly | monthly | yearly
  deriving DecidableEq, Repr

/-- The end of a rule: a time in UTC, a local time, or a date. -/
inductive Until where
  | utc (bound : NaiveDateTime)
  | wall (bound : NaiveDateTime)
  | date (bound : NaiveDate)
  deriving DecidableEq, Repr

/-- A parsed rule. -/
structure Rule where
  freq : Freq
  interval : Nat
  count : Option Nat
  bound : Option Until
  byMonth : List Nat
  byMonthDay : List Int
  byDay : List (Int × Weekday)
  bySetPos : List Int
  wkst : Weekday
  interval_pos : 1 ≤ interval
  byMonth_sorted : byMonth.Pairwise (· < ·)

/-- The steps left, and whether they could be paid. -/
def charge (budget steps : Nat) : Nat × Bool := if steps ≤ budget then (budget - steps, true) else (0, false)

/-! ## Parsing -/

/-- How chrono reads a date and a time (`%Y%m%dT%H%M%S`), and a date (`%Y%m%d`). -/
structure Formats where
  parseDateTime : Text → Option NaiveDateTime
  parseDate : Text → Option NaiveDate

/-- `str::parse::<u32>`. -/
def parseU32 (t : Text) : Option Nat := (parseU64 t).filter (· < 2 ^ 32)

/-- `str::parse::<i32>`. -/
def parseI32 (t : Text) : Option Int :=
  match t with
  | '-' :: digits =>
    if digits.head? = some '+' then none
    else ((parseU64 digits).filter (· ≤ 2 ^ 31)).map fun n => -(n : Int)
  | _ => ((parseU64 t).filter (· < 2 ^ 31)).map fun n => (n : Int)

/-- `str::split_once`. -/
def splitOnce (sep : Char) (t : Text) : Option (Text × Text) :=
  if t.contains sep then some (t.takeWhile (· ≠ sep), (t.dropWhile (· ≠ sep)).tail) else none

def toAsciiUppercase (t : Text) : Text := t.map Char.toUpper

def weekday (code : Text) : Option Weekday :=
  if code = "MO".toList then some .mon
  else if code = "TU".toList then some .tue
  else if code = "WE".toList then some .wed
  else if code = "TH".toList then some .thu
  else if code = "FR".toList then some .fri
  else if code = "SA".toList then some .sat
  else if code = "SU".toList then some .sun
  else none

/-- The items of a comma-separated list, sorted by a key and each kept once. -/
def list {T : Type} (value : Text) (item : Text → Option T) (key : T → Int) : Option {l : List T // l.Pairwise (key · < key ·)} :=
  ((split ',' value).mapM fun v => item (trim v)).map fun items => ⟨sortedBy key items, pairwise_sortedBy key items⟩

def parseUntil (formats : Formats) (value : Text) : Option Until :=
  let value := trim value
  if value.getLast? = some 'Z' then (formats.parseDateTime value.dropLast).map .utc
  else match formats.parseDateTime value with
    | some bound => some (.wall bound)
    | none => (formats.parseDate value).map .date

def monthItem (m : Text) : Option Nat := (parseU32 m).filter fun m => 1 ≤ m && m ≤ 12

def monthDayItem (d : Text) : Option Int := (parseI32 d).filter fun d => d ≠ 0 && -31 ≤ d && d ≤ 31

def trimPlus (t : Text) : Text := t.dropWhile (· == '+')

/-- An ordinal, 0 for none, and a weekday. -/
def dayItem (d : Text) : Option (Int × Weekday) :=
  let ordinal := d.take (d.length - 2)
  if d.length < 2 then none
  else
    (if ordinal.isEmpty then some 0
      else (parseI32 (trimPlus ordinal)).filter fun n => n ≠ 0 && -5 ≤ n && n ≤ 5).bind fun n =>
    (weekday (d.drop (d.length - 2))).map (n, ·)

def dayKey (item : Int × Weekday) : Int := item.1 * 7 + item.2.numDaysFromMonday

def setPosItem (p : Text) : Option Int := (parseI32 (trimPlus p)).filter fun p => p ≠ 0 && -366 ≤ p && p ≤ 366

def parseFreq (value : Text) : Option Freq :=
  if value = "DAILY".toList then some .daily
  else if value = "WEEKLY".toList then some .weekly
  else if value = "MONTHLY".toList then some .monthly
  else if value = "YEARLY".toList then some .yearly
  else none

namespace Rule

/-- The rule before its parts are read. -/
def initial : Rule where
  freq := .daily
  interval := 1
  count := none
  bound := none
  byMonth := []
  byMonthDay := []
  byDay := []
  bySetPos := []
  wkst := .mon
  interval_pos := le_rfl
  byMonth_sorted := List.Pairwise.nil

/-- The frequency, once it is read, and the rule so far. -/
abbrev Parsed := Option Freq × Rule

def withInterval (parsed : Rule) (n : Nat) : Option Rule :=
  if h : 1 ≤ n then some { parsed with interval := n, interval_pos := h } else none

/-- One part of a rule. -/
def parsePart (formats : Formats) (parsed : Parsed) (key value : Text) : Option Parsed :=
  let (freq, rule) := parsed
  if key = "FREQ".toList then (parseFreq value).map fun f => (some f, rule)
  else if key = "INTERVAL".toList then ((parseU32 value).bind rule.withInterval).map (freq, ·)
  else if key = "COUNT".toList then (parseU32 value).map fun n => (freq, { rule with count := some n })
  else if key = "UNTIL".toList then (parseUntil formats value).map fun u => (freq, { rule with bound := some u })
  else if key = "BYMONTH".toList then
    (list value monthItem fun m => (m : Int)).map fun l =>
      (freq, { rule with byMonth := l.val, byMonth_sorted := l.property.imp Int.ofNat_lt.mp })
  else if key = "BYMONTHDAY".toList then
    (list value monthDayItem id).map fun l => (freq, { rule with byMonthDay := l.val })
  else if key = "BYDAY".toList then (list value dayItem dayKey).map fun l => (freq, { rule with byDay := l.val })
  else if key = "BYSETPOS".toList then (list value setPosItem id).map fun l => (freq, { rule with bySetPos := l.val })
  else if key = "WKST".toList then (weekday value).map fun wd => (freq, { rule with wkst := wd })
  else none

/-- Whether the parts of a rule are supported together; `BYSETPOS` picks from what another part selects. -/
def supported (rule : Rule) : Bool :=
  let ordinals := rule.byDay.any fun item => item.1 ≠ 0
  let frequencyOk := match rule.freq with
    | .daily => !ordinals
    | .weekly => !ordinals && rule.byMonthDay.isEmpty
    | .monthly => true
    | .yearly => rule.byDay.isEmpty || !rule.byMonth.isEmpty
  let selects := !(rule.byMonth.isEmpty && rule.byMonthDay.isEmpty && rule.byDay.isEmpty)
  frequencyOk && (rule.bySetPos.isEmpty || selects)

/-- A rule, unless it is malformed or outside the supported subset. -/
def parse (formats : Formats) (rule : Text) : Option Rule :=
  let parts := (split ';' (trim rule)).filter fun p => !(trim p).isEmpty
  let step := fun (parsed : Parsed) (part : Text) =>
    (splitOnce '=' part).bind fun (key, value) =>
      parsePart formats parsed (toAsciiUppercase (trim key)) (toAsciiUppercase (trim value))
  (parts.foldlM step (none, initial)).bind fun (freq, rule) =>
    freq.bind fun freq =>
      let rule := { rule with freq := freq }
      if rule.supported then some rule else none

/-! ## The dates of a period -/

end Rule

/-- Days of a month: bit `d` stands for day `d`. -/
abbrev DaySet := Nat

def daysIn (set : DaySet) : List Nat := (List.range' 1 31).filter fun d => set.testBit d

structure Month where
  len : Nat
  first : Weekday
  deriving DecidableEq, Repr

namespace Month

def of (year : Int) (month : Nat) : Option Month :=
  (NaiveDate.fromYmd year month 1).map fun first =>
    { len := match month with
        | 2 => if (NaiveDate.fromYmd year 2 29).isSome then 29 else 28
        | 4 | 6 | 9 | 11 => 30
        | _ => 31
      first := first.weekday }

def all (month : Month) : DaySet := ((2 ^ 32 - 1) >>> (32 - month.len)) <<< 1

/-- A day of the month, counted from the end when negative. -/
def day (month : Month) (d : Int) : Option Nat :=
  let day := if d < 0 then month.len + 1 + d else d
  if 1 ≤ day ∧ day ≤ month.len then some day.toNat else none

/-- The day of the `n`th weekday of the month. -/
def nthWeekday (month : Month) (n : Int) (weekday : Weekday) : Option Nat :=
  let firstMatch := 1 + weekday.daysSince month.first
  let found := (month.len - firstMatch) / 7 + 1
  let index := if 1 ≤ n then some (n.toNat - 1)
    else if n = 0 then none
    else if n.natAbs ≤ found then some (found - n.natAbs) else none
  index.bind fun index => if index < found then some (firstMatch + 7 * index) else none

/-- A week on, from a day to the end of the month. -/
def weekdaysFrom (month : Month) : Nat → Nat → DaySet → DaySet
  | 0, _, days => days
  | fuel + 1, day, days =>
    if day ≤ month.len then weekdaysFrom month fuel (day + 7) (days ||| 1 <<< day) else days

/-- The days that fall on a weekday. -/
def weekdays (month : Month) (weekday : Weekday) : DaySet :=
  weekdaysFrom month month.len (1 + weekday.daysSince month.first) 0

end Month

namespace Rule

def hasCount (rule : Rule) : Bool := rule.count.isSome

/-- The date of the end, if the rule has one. -/
def untilDate (rule : Rule) : Option NaiveDate :=
  rule.bound.map fun
    | .utc bound | .wall bound => bound.date
    | .date bound => bound

/-- Whether an occurrence, given in local time and in UTC, is within the end. -/
def untilAllows (rule : Rule) (wall utc : NaiveDateTime) : Bool :=
  match rule.bound with
  | none => true
  | some (.utc bound) => utc ≤ bound
  | some (.wall bound) => wall ≤ bound
  | some (.date bound) => wall.date.day ≤ bound.day

def monthMatches (rule : Rule) (month : Nat) : Bool := rule.byMonth.isEmpty || rule.byMonth.contains month

/-- The days of a month the rule selects; a default when it names none. -/
def daysOfMonth (rule : Rule) (month : Month) (defaultDay : Nat) : DaySet :=
  if rule.byMonthDay.isEmpty && rule.byDay.isEmpty then
    if 1 ≤ defaultDay ∧ defaultDay ≤ month.len then 1 <<< defaultDay else 0
  else
    let monthDays := rule.byMonthDay.foldl (fun days d => days ||| (month.day d).elim 0 (1 <<< ·))
      (if rule.byMonthDay.isEmpty then month.all else 0)
    let weekdays := rule.byDay.foldl
      (fun days (n, wd) => days ||| if n = 0 then month.weekdays wd else (month.nthWeekday n wd).elim 0 (1 <<< ·))
      (if rule.byDay.isEmpty then month.all else 0)
    monthDays &&& weekdays

/-- The steps of a period besides the dates it selects. -/
def periodCost (rule : Rule) : Nat :=
  let months := match rule.freq with
    | .yearly =>
      if !rule.byMonth.isEmpty then rule.byMonth.length else if !rule.byMonthDay.isEmpty then 12 else 1
    | _ => 1
  1 + rule.byMonth.length + months * (rule.byMonthDay.length + rule.byDay.length) + rule.bySetPos.length

def dateKey (date : NaiveDate) : Int := date.day

/-- The dates of a period at the `BYSETPOS` positions, counted from the end when negative. -/
def atSetPositions (rule : Rule) (dates : List NaiveDate) : List NaiveDate :=
  if rule.bySetPos.isEmpty then dates
  else
    sortedBy dateKey (rule.bySetPos.filterMap fun pos =>
      if 1 ≤ pos then dates[pos.toNat - 1]?
      else if pos < 0 ∧ pos.natAbs ≤ dates.length then dates[dates.length - pos.natAbs]?
      else none)

def dailyPeriod (rule : Rule) (anchor : NaiveDate) (step : Nat) : Option (NaiveDate × List NaiveDate) :=
  (anchor.checkedAddDays step).bind fun day =>
    (Month.of day.year day.month).map fun month =>
      let selected := rule.monthMatches day.month && (rule.daysOfMonth month day.dayOfMonth).testBit day.dayOfMonth
      (day, if selected then [day] else [])

def weeklyPeriod (rule : Rule) (anchor : NaiveDate) (step : Nat) : Option (NaiveDate × List NaiveDate) :=
  (anchor.checkedSubDays (anchor.weekday.daysSince rule.wkst)).bind fun week0 =>
    if 2 ^ 64 ≤ step * 7 then none
    else
      (week0.checkedAddDays (step * 7)).map fun week =>
        let days := if rule.byDay.isEmpty then [anchor.weekday] else rule.byDay.map (·.2)
        let dates := (days.filterMap fun wd => week.checkedAddDays (wd.daysSince rule.wkst)).filter
          fun d => rule.monthMatches d.month
        (week, sortedBy dateKey dates)

def monthlyPeriod (rule : Rule) (anchor : NaiveDate) (step : Nat) : Option (NaiveDate × List NaiveDate) :=
  (anchor.withDay 1).bind fun begin =>
    if 2 ^ 32 ≤ step then none
    else
      (begin.checkedAddMonths step).bind fun first =>
        if !rule.monthMatches first.month then some (first, [])
        else
          (Month.of first.year first.month).map fun month =>
            (first, (daysIn (rule.daysOfMonth month anchor.dayOfMonth)).filterMap first.withDay)

/-- The months a yearly rule looks at. -/
def monthsOfYear (rule : Rule) (anchor : NaiveDate) : List Nat :=
  if !rule.byMonth.isEmpty then rule.byMonth
  else if !rule.byMonthDay.isEmpty then List.range' 1 12
  else [anchor.month]

/-- The dates of one month of a yearly rule. -/
def datesOfMonth (rule : Rule) (anchor : NaiveDate) (year : Int) (m : Nat) : List NaiveDate :=
  match Month.of year m with
  | none => []
  | some month => (daysIn (rule.daysOfMonth month anchor.dayOfMonth)).filterMap (NaiveDate.fromYmd year m)

def yearlyPeriod (rule : Rule) (anchor : NaiveDate) (step : Nat) : Option (NaiveDate × List NaiveDate) :=
  if 2 ^ 31 ≤ step then none
  else
    (NaiveDate.fromYmd (anchor.year + step) 1 1).map fun first =>
      (first, (rule.monthsOfYear anchor).flatMap (rule.datesOfMonth anchor (anchor.year + step)))

/-- The first day of period `k` and the dates the rule selects in it, in order; none when they leave the range. -/
def period (rule : Rule) (anchor : NaiveDate) (k : Nat) : Option (NaiveDate × List NaiveDate) :=
  if 2 ^ 64 ≤ k * rule.interval then none
  else
    match rule.freq with
    | .daily => rule.dailyPeriod anchor (k * rule.interval)
    | .weekly => rule.weeklyPeriod anchor (k * rule.interval)
    | .monthly => rule.monthlyPeriod anchor (k * rule.interval)
    | .yearly => rule.yearlyPeriod anchor (k * rule.interval)

/-! ## The walk -/

/-- Periods that end before a date, with one of slack. -/
def periodsBefore (rule : Rule) (anchor start : NaiveDate) : Nat :=
  let elapsed : Int := match rule.freq with
    | .daily => start.day - anchor.day
    | .weekly => (start.day - anchor.day).tdiv 7
    | .monthly => (start.year - anchor.year) * 12 + start.month - anchor.month
    | .yearly => start.year - anchor.year
  (elapsed.tdiv rule.interval - 1).toNat

variable {S : Type}

/-- The dates of a period; none when the walk ends with them, else how many occurrences it has produced. -/
def visitDates (visit : S → NaiveDateTime → S × Bool) (rule : Rule) (start stop : NaiveDateTime) :
    S → Nat → List NaiveDate → S × Option Nat
  | s, produced, [] => (s, some produced)
  | s, produced, date :: dates =>
    let wall : NaiveDateTime := ⟨date, start.time⟩
    if wall ≤ start then visitDates visit rule start stop s produced dates
    else if stop < wall ∨ rule.count.any (· ≤ produced) then (s, none)
    else if (visit s wall).2 then visitDates visit rule start stop (visit s wall).1 (produced + 1) dates
    else ((visit s wall).1, none)

/-- What a walk leaves: what was visited, the budget, and whether the budget was enough. -/
structure Walked (S : Type) where
  state : S
  budget : Nat
  done : Bool

/-- The periods from `k` on. Each costs a step, so the budget bounds them. -/
def walkFrom (visit : S → NaiveDateTime → S × Bool) (rule : Rule) (start stop : NaiveDateTime) :
    Nat → S → Nat → Nat → Nat → Walked S
  | 0, s, _, _, _ => ⟨s, 0, false⟩
  | fuel + 1, s, budget, produced, k =>
    if rule.count.any (· ≤ produced) then ⟨s, budget, true⟩
    else
      let paid := charge budget rule.periodCost
      if !paid.2 then ⟨s, paid.1, false⟩
      else
        match rule.period start.date k with
        | none => ⟨s, paid.1, true⟩
        | some (periodStart, dates) =>
          if stop.date.day < periodStart.day then ⟨s, paid.1, true⟩
          else
            let paid := charge paid.1 dates.length
            if !paid.2 then ⟨s, paid.1, false⟩
            else
              match visitDates visit rule start stop s produced (rule.atSetPositions dates) with
              | (s, none) => ⟨s, paid.1, true⟩
              | (s, some produced) => walkFrom visit rule start stop fuel s paid.1 produced (k + 1)

/-- The first period of a walk. -/
def firstPeriod (rule : Rule) (start : NaiveDateTime) (after : Option NaiveDate) : Nat :=
  match rule.count, after with
  | none, some after => rule.periodsBefore start.date after
  | _, _ => 0

/-- Visits the local starts of the occurrences in order, the start first, until the visitor ends it or the periods pass
`stop`. Without a count, periods that end before `after` are skipped. -/
def walk (visit : S → NaiveDateTime → S × Bool) (rule : Rule) (start : NaiveDateTime) (after : Option NaiveDate)
    (stop : NaiveDateTime) (s : S) (budget : Nat) : Walked S :=
  let first := rule.firstPeriod start after
  if first = 0 then
    if (visit s start).2 then walkFrom visit rule start stop (budget + 1) (visit s start).1 budget 1 0
    else ⟨(visit s start).1, budget, true⟩
  else walkFrom visit rule start stop (budget + 1) s budget 0 first

end Rule

end Recurrence
