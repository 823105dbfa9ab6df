import Mathlib.Data.List.Sort
import RemarkableServer.RecurrenceBudget

/-!
# Walks that skip ahead

A walk without a count begins near the date it is given. The periods that it leaves out end before
that date, so that from there on it visits what a walk from the start visits.
-/
namespace RecurrenceSkip

open Chrono Recurrence RecurrenceWalk RecurrenceBudget

variable {rule : Rule} {start stop : NaiveDateTime}

/-- The occurrences on a date or after it. -/
def onOrAfter (date : NaiveDate) (walls : List NaiveDateTime) : List NaiveDateTime :=
  walls.filter fun wall => date.day ≤ wall.date.day

theorem mem_onOrAfter {date : NaiveDate} {walls : List NaiveDateTime} {wall : NaiveDateTime} :
    wall ∈ onOrAfter date walls ↔ wall ∈ walls ∧ date.day ≤ wall.date.day := by
  rw [onOrAfter, List.mem_filter, decide_eq_true_iff]

theorem pairwise_visited (rule : Rule) (start : NaiveDateTime) (after : Option NaiveDate) (stop : NaiveDateTime) :
    (visited rule start after stop).Pairwise (· < ·) :=
  (pairwise_occurrences rule start).sublist (visited_sublist rule start after stop)

/-- An occurrence that one walk visits the other visits too, unless that skips its date. -/
theorem mem_visited_of_mem {after after' : Option NaiveDate} {wall : NaiveDateTime}
    (h : wall ∈ visited rule start after' stop) (hdate : ∀ date, after = some date → date.day ≤ wall.date.day) :
    wall ∈ visited rule start after stop := by
  obtain ⟨skipped, past, hsplit, hskipped, hpast⟩ := occurrences_eq rule start after stop
  have hmem := (visited_sublist rule start after' stop).subset h
  rw [hsplit] at hmem
  rcases List.mem_append.mp hmem with hmem | hmem
  · rcases List.mem_append.mp hmem with hmem | hmem
    · obtain ⟨date, hafter, hlt⟩ := hskipped wall hmem
      exact absurd (hdate date hafter) (not_le.mpr hlt)
    · exact hmem
  · obtain ⟨hstop, hstart⟩ := hpast wall hmem
    rcases mem_visited h with rfl | hle
    · exact absurd hstart (lt_irrefl _)
    · exact absurd hstop (not_lt.mpr hle)

/-- From the date on, nothing is left out and nothing is added. -/
theorem onOrAfter_visited (rule : Rule) (start stop : NaiveDateTime) (date : NaiveDate) :
    onOrAfter date (visited rule start (some date) stop) = onOrAfter date (visited rule start none stop) := by
  have hsorted : ∀ after, (onOrAfter date (visited rule start after stop)).Pairwise (· < ·) := fun after =>
    (pairwise_visited rule start after stop).sublist List.filter_sublist
  apply List.Pairwise.eq_of_mem_iff (hsorted (some date)) (hsorted none)
  intro wall
  rw [mem_onOrAfter, mem_onOrAfter]
  constructor
  · rintro ⟨hmem, hdate⟩
    exact ⟨mem_visited_of_mem hmem fun _ h => (nomatch h), hdate⟩
  · rintro ⟨hmem, hdate⟩
    refine ⟨mem_visited_of_mem hmem ?_, hdate⟩
    intro date' h
    cases h
    exact hdate

/-- Some budget is enough for a walk from a date and for one from the start, and with budgets that are
enough they visit the same occurrences from the date on, in the same order. -/
theorem skipping_keeps_occurrences (rule : Rule) (start stop : NaiveDateTime) (date : NaiveDate) :
    (∃ cost, ∀ budget, cost ≤ budget → ∀ after ∈ [some date, none], (rule.walk collect start after stop [] budget).done = true) ∧
    ∀ budget budget', (rule.walk collect start (some date) stop [] budget).done = true →
      (rule.walk collect start none stop [] budget').done = true →
      onOrAfter date (rule.walk collect start (some date) stop [] budget).state =
        onOrAfter date (rule.walk collect start none stop [] budget').state := by
  constructor
  · obtain ⟨cost, hcost⟩ := RecurrenceCost.walk_enough collect rule start stop (some date)
    obtain ⟨cost', hcost'⟩ := RecurrenceCost.walk_enough collect rule start stop none
    refine ⟨max cost cost', ?_⟩
    intro budget hbudget after hafter
    rcases List.mem_cons.mp hafter with rfl | hafter
    · exact (hcost [] budget (le_of_max_le_left hbudget)).1
    · rw [List.mem_singleton.mp hafter]
      exact (hcost' [] budget (le_of_max_le_right hbudget)).1
  · intro budget budget' hdone hdone'
    rw [walk_collect hdone, walk_collect hdone', onOrAfter_visited]

/-- A weekly rule, from the fifth week on. -/
theorem skipping_keeps_occurrences_everyWeek :
    onOrAfter ⟨740012, by decide⟩
        (everyWeek.walk collect newYear (some ⟨740012, by decide⟩) ⟨⟨740040, by decide⟩, .midnight⟩ [] 100).state =
      onOrAfter ⟨740012, by decide⟩
        (everyWeek.walk collect newYear none ⟨⟨740040, by decide⟩, .midnight⟩ [] 100).state :=
  (skipping_keeps_occurrences everyWeek newYear _ _).2 100 100 (by decide +kernel) (by decide +kernel)

end RecurrenceSkip
