import RemarkableServer.RecurrenceWalk

/-!
# What a budget pays for

A walk that its budget ends has visited the first of the occurrences, and a budget that is
large enough lets every walk of the rule end, whatever its visitor does.
-/
namespace RecurrenceCost

open Chrono Recurrence RecurrenceWalk

variable {S : Type} {visit : S → NaiveDateTime → S × Bool} {rule : Rule} {start stop : NaiveDateTime} {k : Nat}

/-! ## The first occurrences -/

theorem visitAll_append {s s' : S} {seen : List NaiveDateTime} (h : visitAll visit s seen = (s', true))
    (walls : List NaiveDateTime) : visitAll visit s (seen ++ walls) = visitAll visit s' walls := by
  induction seen generalizing s with
  | nil =>
    cases h
    rfl
  | cons wall seen ih =>
    rw [visitAll] at h
    rw [List.cons_append, visitAll]
    by_cases hmore : (visit s wall).2 = true
    · rw [if_pos hmore] at h ⊢
      exact ih h
    · rw [if_neg hmore] at h
      rw [h] at hmore
      exact absurd rfl hmore

/-- What a walk visits of a period comes first in what it has to visit. -/
theorem visitDates_first {s s' : S} {produced produced' : Nat} {dates : List NaiveDate} (rest : List NaiveDateTime)
    (h : Rule.visitDates visit rule start stop s produced dates = (s', some produced')) :
    ∃ seen, upTo rule stop produced (startsOn start dates ++ rest) = seen ++ upTo rule stop produced' rest ∧
      visitAll visit s seen = (s', true) := by
  induction dates generalizing s produced with
  | nil =>
    cases h
    exact ⟨[], rfl, rfl⟩
  | cons date dates ih =>
    rw [Rule.visitDates] at h
    rw [startsOn_cons]
    split at h
    next hle =>
      rw [if_neg (not_lt.mpr hle)]
      exact ih h
    next hle =>
      split at h
      · cases h
      next hin =>
        obtain ⟨hstop, hcount⟩ := not_or.mp hin
        split at h
        next hmore =>
          obtain ⟨seen, hseen, hvisits⟩ := ih h
          refine ⟨⟨date, start.time⟩ :: seen, ?_, ?_⟩
          · rw [if_pos (not_le.mp hle), List.cons_append, upTo_cons hcount hstop, hseen]
            rfl
          · rw [visitAll, if_pos hmore, hvisits]
        · cases h

/-- Whatever its budget, a walk visits the first of the occurrences. -/
theorem walkFrom_first (fuel budget produced k : Nat) (s : S) :
    ∃ n, (Rule.walkFrom visit rule start stop fuel s budget produced k).state =
      (visitAll visit s ((upTo rule stop produced (occurrencesFrom rule start k)).take n)).1 := by
  induction fuel generalizing budget produced k s with
  | zero => exact ⟨0, rfl⟩
  | succ fuel ih =>
    rw [Rule.walkFrom]
    dsimp only
    split
    · exact ⟨0, rfl⟩
    split
    · exact ⟨0, rfl⟩
    cases hperiod : rule.period start.date k with
    | none => exact ⟨0, rfl⟩
    | some p =>
      dsimp only
      split
      · exact ⟨0, rfl⟩
      split
      · exact ⟨0, rfl⟩
      rw [occurrencesFrom_of_some hperiod]
      cases hvisit : Rule.visitDates visit rule start stop s produced (rule.atSetPositions p.2) with
      | mk s' more =>
        cases more with
        | none =>
          have hdone := visitDates_done (occurrencesFrom rule start (k + 1)) hvisit
          refine ⟨(upTo rule stop produced (startsOn start (rule.atSetPositions p.2) ++
            occurrencesFrom rule start (k + 1))).length, ?_⟩
          rw [List.take_length]
          exact hdone.symm
        | some produced' =>
          obtain ⟨seen, hseen, hvisits⟩ := visitDates_first (occurrencesFrom rule start (k + 1)) hvisit
          obtain ⟨n, hn⟩ := ih (charge (charge budget rule.periodCost).1 p.2.length).1 produced' (k + 1) s'
          refine ⟨seen.length + n, ?_⟩
          rw [hseen, List.take_length_add_append, visitAll_append hvisits]
          exact hn

theorem walk_first (after : Option NaiveDate) (s : S) (budget : Nat) :
    ∃ n, (rule.walk visit start after stop s budget).state =
      (visitAll visit s ((visited rule start after stop).take n)).1 := by
  unfold Rule.walk visited
  dsimp only
  split
  next hfirst =>
    split
    next hmore =>
      obtain ⟨n, hn⟩ := @walkFrom_first S visit rule start stop (budget + 1) budget 1 0 (visit s start).1
      refine ⟨n + 1, ?_⟩
      rw [List.take_succ_cons, visitAll, if_pos hmore]
      exact hn
    next hmore =>
      refine ⟨1, ?_⟩
      rw [List.take_succ_cons, visitAll, if_neg hmore]
  next hfirst => exact walkFrom_first _ _ _ _ _

/-! ## A budget that is enough -/

theorem charge_of_le {budget steps : Nat} (h : steps ≤ budget) : charge budget steps = (budget - steps, true) := if_pos h

theorem walkFrom_of_none {fuel budget produced : Nat} (s : S) (hperiod : rule.period start.date k = none)
    (hbudget : rule.periodCost ≤ budget) (hfuel : budget < fuel) :
    (Rule.walkFrom visit rule start stop fuel s budget produced k).done = true ∧
      budget ≤ (Rule.walkFrom visit rule start stop fuel s budget produced k).budget + rule.periodCost := by
  obtain ⟨fuel, rfl⟩ : ∃ n, fuel = n + 1 := ⟨fuel - 1, by omega⟩
  rw [Rule.walkFrom, charge_of_le hbudget, hperiod]
  split
  · exact ⟨rfl, Nat.le_add_right budget _⟩
  · exact ⟨rfl, (Nat.sub_add_cancel hbudget).ge⟩

/-- There are finitely many periods, each of a known cost. -/
theorem walkFrom_enough (visit : S → NaiveDateTime → S × Bool) (rule : Rule) (start stop : NaiveDateTime) (k : Nat) :
    ∃ cost, ∀ fuel s budget produced, cost ≤ budget → budget < fuel →
      (Rule.walkFrom visit rule start stop fuel s budget produced k).done = true ∧
        budget ≤ (Rule.walkFrom visit rule start stop fuel s budget produced k).budget + cost := by
  induction hleft : lastPeriod - k generalizing k with
  | zero => exact ⟨rule.periodCost, fun fuel s budget produced => walkFrom_of_none s (period_eq_none_of_large (by omega))⟩
  | succ left ih =>
    obtain ⟨cost, hcost⟩ := ih (k + 1) (by omega)
    cases hperiod : rule.period start.date k with
    | none => exact ⟨rule.periodCost, fun fuel s budget produced => walkFrom_of_none s hperiod⟩
    | some p =>
      refine ⟨rule.periodCost + p.2.length + cost, fun fuel s budget produced hbudget hfuel => ?_⟩
      have hpos := periodCost_pos rule
      obtain ⟨fuel, rfl⟩ : ∃ n, fuel = n + 1 := ⟨fuel - 1, by omega⟩
      rw [Rule.walkFrom, charge_of_le (show rule.periodCost ≤ budget by omega), hperiod]
      dsimp only
      rw [charge_of_le (show p.2.length ≤ budget - rule.periodCost by omega)]
      split
      · exact ⟨rfl, Nat.le_add_right budget _⟩
      have hpaid : ¬(!true) = true := by decide
      rw [if_neg hpaid, if_neg hpaid]
      split
      · exact ⟨rfl, by dsimp only; omega⟩
      cases Rule.visitDates visit rule start stop s produced (rule.atSetPositions p.2) with
      | mk s' more =>
        cases more with
        | none => exact ⟨rfl, by dsimp only; omega⟩
        | some produced' =>
          obtain ⟨hdone, hleft⟩ := hcost fuel s' (budget - rule.periodCost - p.2.length) produced' (by omega) (by omega)
          refine ⟨hdone, ?_⟩
          dsimp only
          omega

theorem walk_enough (visit : S → NaiveDateTime → S × Bool) (rule : Rule) (start stop : NaiveDateTime)
    (after : Option NaiveDate) :
    ∃ cost, ∀ s budget, cost ≤ budget → (rule.walk visit start after stop s budget).done = true ∧
      budget ≤ (rule.walk visit start after stop s budget).budget + cost := by
  obtain ⟨cost, hcost⟩ := walkFrom_enough visit rule start stop (rule.firstPeriod start after)
  refine ⟨cost, fun s budget hbudget => ?_⟩
  unfold Rule.walk
  dsimp only
  split
  next hfirst =>
    rw [hfirst] at hcost
    split
    · exact hcost _ _ _ _ hbudget (Nat.lt_succ_self budget)
    · exact ⟨rfl, Nat.le_add_right budget cost⟩
  next hfirst => exact hcost _ _ _ _ hbudget (Nat.lt_succ_self budget)

end RecurrenceCost
