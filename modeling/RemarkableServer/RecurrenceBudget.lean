import RemarkableServer.RecurrenceCost
import RemarkableServer.RecurrenceSet

/-!
# A walk and its budget

The steps of a walk are what it would charge with a budget without end. With as many it goes
through the whole of the recurrence set up to its end; with fewer it breaks off in it.
-/
namespace RecurrenceBudget

open Civil Chrono Recurrence RecurrenceWalk RecurrenceSet

/-! ## Steps -/

variable {S : Type}

/-- A visitor that always goes on. -/
def always (f : S → NaiveDateTime → S) : S → NaiveDateTime → S × Bool := fun s wall => (f s wall, true)

/-- The occurrences produced after some dates, unless the walk ends with them. -/
def countDates (rule : Rule) (start stop : NaiveDateTime) (produced : Nat) (dates : List NaiveDate) : Option Nat :=
  (Rule.visitDates (always fun (_ : Unit) _ => ()) rule start stop () produced dates).2

def stepsFrom (rule : Rule) (start stop : NaiveDateTime) : Nat → Nat → Nat → Nat
  | 0, _, _ => 0
  | fuel + 1, produced, k =>
    if rule.count.any (· ≤ produced) then 0
    else
      rule.periodCost +
        match rule.period start.date k with
        | none => 0
        | some (periodStart, dates) =>
          if stop.date.day < periodStart.day then 0
          else
            dates.length +
              match countDates rule start stop produced (rule.atSetPositions dates) with
              | none => 0
              | some produced => stepsFrom rule start stop fuel produced (k + 1)

/-- The steps of a walk from the start. There are fewer periods than the fuel allows. -/
def steps (rule : Rule) (start stop : NaiveDateTime) : Nat := stepsFrom rule start stop (lastPeriod + 1) 1 0

/-! ## What is visited -/

variable {rule : Rule} {start stop : NaiveDateTime} {f : S → NaiveDateTime → S}

theorem visitAll_always (s : S) (walls : List NaiveDateTime) : visitAll (always f) s walls = (walls.foldl f s, true) := by
  induction walls generalizing s with
  | nil => rfl
  | cons wall walls ih => simp [visitAll, always, ← ih]

theorem visitDates_always (s : S) (produced : Nat) (dates : List NaiveDate) :
    (Rule.visitDates (always f) rule start stop s produced dates).2 = countDates rule start stop produced dates := by
  induction dates generalizing s produced with
  | nil => rfl
  | cons date dates ih =>
    simp only [countDates, Rule.visitDates]
    split
    · exact ih s produced
    · split
      · rfl
      · exact ih (f s _) (produced + 1)

/-- A budget is enough when the walk has no more steps. -/
theorem walkFrom_done_iff {fuel fuel' budget produced k : Nat} (s : S) (hfuel : budget < fuel) (hfuel' : 1 ≤ fuel')
    (hlast : lastPeriod + 1 ≤ fuel' + k) :
    (Rule.walkFrom (always f) rule start stop fuel s budget produced k).done = true ↔
      stepsFrom rule start stop fuel' produced k ≤ budget := by
  induction fuel generalizing fuel' budget produced k s with
  | zero => omega
  | succ fuel ih =>
    obtain ⟨fuel', rfl⟩ : ∃ n, fuel' = n + 1 := ⟨fuel' - 1, by omega⟩
    rw [Rule.walkFrom, stepsFrom]
    dsimp only
    split
    · simp
    have hcost := periodCost_pos rule
    by_cases hpaid : rule.periodCost ≤ budget
    · have hcharge : charge budget rule.periodCost = (budget - rule.periodCost, true) := if_pos hpaid
      rw [hcharge]
      dsimp only
      rw [if_neg (by simp)]
      cases hperiod : rule.period start.date k with
      | none => simpa using hpaid
      | some p =>
        dsimp only
        split
        · simpa using hpaid
        by_cases hpaid' : p.2.length ≤ budget - rule.periodCost
        · have hcharge' : charge (budget - rule.periodCost) p.2.length =
              (budget - rule.periodCost - p.2.length, true) := if_pos hpaid'
          rw [hcharge']
          dsimp only
          rw [if_neg (by simp), ← visitDates_always s produced (rule.atSetPositions p.2)]
          cases hvisit : Rule.visitDates (always f) rule start stop s produced (rule.atSetPositions p.2) with
          | mk s' more =>
            cases more with
            | none =>
              show true = true ↔ rule.periodCost + (p.2.length + 0) ≤ budget
              simp only [true_iff]
              omega
            | some produced' =>
              have hlt : k < lastPeriod := by
                by_contra hlarge
                rw [period_eq_none_of_large (not_lt.mp hlarge)] at hperiod
                cases hperiod
              show _ ↔ rule.periodCost + (p.2.length + stepsFrom rule start stop fuel' produced' (k + 1)) ≤ budget
              rw [ih s' (by omega) (show 1 ≤ fuel' by omega) (by omega)]
              omega
        · have hcharge' : charge (budget - rule.periodCost) p.2.length = (0, false) := if_neg hpaid'
          rw [hcharge']
          dsimp only
          generalize countDates rule start stop produced (rule.atSetPositions p.2) = more
          have hle : ∀ rest : Nat, ¬rule.periodCost + (p.2.length + rest) ≤ budget := by omega
          simp only [Bool.not_false, if_true, Bool.false_eq_true, false_iff]
          exact hle _
    · have hcharge : charge budget rule.periodCost = (0, false) := if_neg hpaid
      rw [hcharge]
      simp
      omega

/-! ## The recurrence set in order -/

/-- The date-times after the start and not after `stop`, at its time of day on the dates of the set, in order. -/
structure IsListing (rule : Rule) (start stop : NaiveDateTime) (all : List NaiveDateTime) : Prop where
  sorted : all.Pairwise (· < ·)
  mem : ∀ t, t ∈ all ↔ start < t ∧ t ≤ stop ∧ t.time = start.time ∧ InSet rule start.date t.date

/-- What is due to be visited: the start, and the others up to the count, of which the start is the first. -/
def calls (rule : Rule) (start : NaiveDateTime) (all : List NaiveDateTime) : List NaiveDateTime :=
  start :: limit rule 1 all

theorem limit_takeWhile (produced : Nat) (walls : List NaiveDateTime) :
    upTo rule stop produced walls = limit rule produced (walls.takeWhile fun wall => wall ≤ stop) := by
  unfold upTo limit
  cases rule.count with
  | none => rfl
  | some count => exact List.take_takeWhile.symm

theorem isListing_occurrences (hsupported : rule.supported = true) (hbegins : Begins rule start.date) :
    IsListing rule start stop ((occurrencesFrom rule start 0).takeWhile fun wall => wall ≤ stop) := by
  have hsorted := pairwise_occurrencesFrom rule start 0
  constructor
  · exact hsorted.sublist (List.takeWhile_sublist _)
  · intro t
    rw [mem_takeWhile hsorted, mem_occurrencesFrom_zero hsupported hbegins]
    constructor
    · rintro ⟨⟨hlt, htime, hset⟩, hle⟩
      exact ⟨hlt, hle, htime, hset⟩
    · rintro ⟨hlt, hle, htime, hset⟩
      exact ⟨⟨hlt, htime, hset⟩, hle⟩

theorem supported_of_parse {formats : Formats} {text : RustText.Text} (h : Rule.parse formats text = some rule) :
    rule.supported = true := by
  obtain ⟨⟨freq, parsed⟩, -, h⟩ := Option.bind_eq_some_iff.mp h
  obtain ⟨freq', -, h⟩ := Option.bind_eq_some_iff.mp h
  dsimp only at h
  split at h
  next hsupported =>
    cases h
    exact hsupported
  · cases h

/-- A walk of a rule from a start whose week, for a weekly rule, begins within the range: with a budget of its steps it
visits the start and the recurrence set in order, and with any budget the first of these. -/
theorem walk_visits_set {formats : Formats} {text : RustText.Text} {rule : Rule}
    (hparse : Rule.parse formats text = some rule) (start stop : NaiveDateTime) (hbegins : Begins rule start.date) :
    ∃ all, IsListing rule start stop all ∧
      ∀ (S : Type) (f : S → NaiveDateTime → S) (s : S) (budget : Nat),
        ((rule.walk (always f) start none stop s budget).done = true ↔ steps rule start stop ≤ budget) ∧
        ((rule.walk (always f) start none stop s budget).done = true →
          (rule.walk (always f) start none stop s budget).state = (calls rule start all).foldl f s) ∧
        ∃ n, (rule.walk (always f) start none stop s budget).state = ((calls rule start all).take n).foldl f s := by
  refine ⟨_, isListing_occurrences (supported_of_parse hparse) hbegins, ?_⟩
  intro S f s budget
  have hfirst : rule.firstPeriod start none = 0 := by
    unfold Rule.firstPeriod
    cases rule.count <;> rfl
  have hwalk : rule.walk (always f) start none stop s budget =
      Rule.walkFrom (always f) rule start stop (budget + 1) (f s start) budget 1 0 := by
    rw [Rule.walk, hfirst]
    rfl
  have hcalls : calls rule start ((occurrencesFrom rule start 0).takeWhile fun wall => wall ≤ stop) =
      start :: upTo rule stop 1 (occurrencesFrom rule start 0) := by
    rw [limit_takeWhile]
    rfl
  rw [hwalk, hcalls]
  refine ⟨?_, ?_, ?_⟩
  · exact walkFrom_done_iff (f s start) (Nat.lt_succ_self budget) (Nat.succ_pos _) (by omega)
  · intro hdone
    rw [walkFrom_spec hdone, visitAll_always]
    rfl
  · obtain ⟨n, hn⟩ := @RecurrenceCost.walkFrom_first S (always f) rule start stop (budget + 1) budget 1 0 (f s start)
    refine ⟨n + 1, ?_⟩
    rw [hn, visitAll_always, List.take_succ_cons]
    rfl

/-! ## The first week of the range -/

/-- A reader of no times: the rule here has no end. -/
def noFormats : Formats := ⟨fun _ => none, fun _ => none⟩

def everyWeek : Rule := { Rule.initial with freq := .weekly }

theorem parse_everyWeek : Rule.parse noFormats "FREQ=WEEKLY".toList = some everyWeek := rfl

/-- The 1st of January of the year 2026, at midnight. -/
def newYear : NaiveDateTime := ⟨⟨739982, by decide⟩, .midnight⟩

def fourWeeksLater : NaiveDateTime := ⟨⟨740010, by decide⟩, .midnight⟩

/-- Four weeks from then on. -/
theorem walk_visits_set_newYear :
    ∃ all, IsListing everyWeek newYear fourWeeksLater all ∧
      ∀ (S : Type) (f : S → NaiveDateTime → S) (s : S) (budget : Nat),
        ((everyWeek.walk (always f) newYear none fourWeeksLater s budget).done = true ↔
            steps everyWeek newYear fourWeeksLater ≤ budget) ∧
        ((everyWeek.walk (always f) newYear none fourWeeksLater s budget).done = true →
          (everyWeek.walk (always f) newYear none fourWeeksLater s budget).state =
            (calls everyWeek newYear all).foldl f s) ∧
        ∃ n, (everyWeek.walk (always f) newYear none fourWeeksLater s budget).state =
          ((calls everyWeek newYear all).take n).foldl f s :=
  walk_visits_set parse_everyWeek newYear fourWeeksLater fun _ => by decide

example : (everyWeek.walk collect newYear none fourWeeksLater [] 100).state.length = 5 := by decide +kernel

/-- The first date there is, a Thursday, and a week later. -/
def firstDate : NaiveDateTime := ⟨⟨minDay, by decide⟩, .midnight⟩

def weekLater : NaiveDateTime := ⟨⟨minDay + 7, by decide⟩, .midnight⟩

theorem foldl_count (n : Nat) (walls : List NaiveDateTime) : walls.foldl (fun n _ => n + 1) n = n + walls.length := by
  induction walls generalizing n with
  | nil => rfl
  | cons wall walls ih =>
    simp only [List.foldl_cons, ih, List.length_cons]
    omega

/-- Every week from the first date: its week begins before the range, and the walk ends after the start. -/
theorem walk_ends_in_first_week :
    Rule.parse noFormats "FREQ=WEEKLY".toList = some everyWeek ∧
      ¬∃ all, IsListing everyWeek firstDate weekLater all ∧
        ∀ (S : Type) (f : S → NaiveDateTime → S) (s : S), ∃ enough, ∀ budget, enough ≤ budget →
          (everyWeek.walk (always f) firstDate none weekLater s budget).done = true ∧
          (everyWeek.walk (always f) firstDate none weekLater s budget).state = (calls everyWeek firstDate all).foldl f s := by
  constructor
  · exact parse_everyWeek
  · rintro ⟨all, hlisting, hwalk⟩
    obtain ⟨enough, henough⟩ := hwalk Nat (fun n _ => n + 1) 0
    have hperiod : everyWeek.period firstDate.date 0 = none := Option.isNone_iff_eq_none.mp (by decide)
    have hfirst : everyWeek.firstPeriod firstDate none = 0 := rfl
    have hvisited : visited everyWeek firstDate none weekLater = [firstDate] := by
      rw [visited, if_pos hfirst, occurrencesFrom_of_none hperiod]
      rfl
    have hall : all = [] := by
      obtain ⟨hdone, hstate⟩ := henough enough le_rfl
      rw [walk_spec hdone, visitAll_always, hvisited] at hstate
      have hlength : 1 = 1 + all.length := hstate.trans (foldl_count 1 all)
      exact List.length_eq_zero_iff.mp (by omega)
    have hlater : weekLater ∈ all := by
      apply (hlisting.mem weekLater).mpr
      refine ⟨NaiveDateTime.lt_iff.mpr (by decide), le_rfl, rfl, 1, ⟨?_, ?_⟩, fun h => absurd rfl h⟩
      · show weekStart .mon weekLater.date = weekStart .mon firstDate.date + 7 * (1 * 1 : Nat)
        decide
      · exact ⟨fun h => absurd rfl h, fun h => absurd rfl h, fun h => absurd rfl h, fun _ => by decide⟩
    rw [hall] at hlater
    cases hlater

end RecurrenceBudget
