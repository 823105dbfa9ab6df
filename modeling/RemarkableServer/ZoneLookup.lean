import RemarkableServer.RecurrenceCost
import RemarkableServer.TimeZone

/-!
# Lookups that are not cut short

What a zone says of a local time does not depend on the budget that pays for it, as long as
it is enough; and a time is converted by less than a day.
-/
namespace ZoneLookup

open Chrono Recurrence RecurrenceWalk RecurrenceCost TimeZone

/-- The latest onset of an observance, at any cost. -/
def plainLastOnset (o : Observance) (wall : NaiveDateTime) : Option NaiveDateTime :=
  match o.start with
  | none => none
  | some start =>
    if wall < start then o.listed wall
    else
      match o.rule with
      | none => Observance.later (o.listed wall) start
      | some rule =>
        (visitAll (o.visitOnset rule wall) (Observance.later (o.listed wall) start)
          (visited rule start (Observance.walkStart rule wall) wall)).1

theorem lastOnset_spec {o : Observance} {wall : NaiveDateTime} {budget : Nat} {last : Option NaiveDateTime}
    (h : (o.lastOnset wall budget).2 = some last) : last = plainLastOnset o wall := by
  unfold Observance.lastOnset at h
  unfold plainLastOnset
  cases hstart : o.start with
  | none =>
    rw [hstart] at h
    exact (Option.some.inj h).symm
  | some start =>
    rw [hstart] at h
    dsimp only at h ⊢
    split
    next hwall =>
      rw [if_pos hwall] at h
      exact (Option.some.inj h).symm
    next hwall =>
      rw [if_neg hwall] at h
      cases hrule : o.rule with
      | none =>
        rw [hrule] at h
        exact (Option.some.inj h).symm
      | some rule =>
        rw [hrule] at h
        dsimp only at h ⊢
        split at h
        next hdone =>
          rw [← walk_spec hdone]
          exact (Option.some.inj h).symm
        · cases h

/-- The latest onset of some observances, at any cost. -/
def plainLatest (wall : NaiveDateTime) (observances : List Observance) (latest : Option Latest) : Option Latest :=
  observances.foldl (fun latest o => Zone.latestOf latest o (plainLastOnset o wall)) latest

theorem latestOnset_spec {wall : NaiveDateTime} {observances : List Observance} {latest found : Option Latest} {budget : Nat}
    (h : (Zone.latestOnset wall observances latest budget).2 = some found) : found = plainLatest wall observances latest := by
  induction observances generalizing latest budget with
  | nil => exact (Option.some.inj h).symm
  | cons o rest ih =>
    unfold Zone.latestOnset at h
    dsimp only at h
    split at h
    · cases h
    · cases honset : o.lastOnset wall (charge budget 1).1 with
      | mk budget' onset =>
        rw [honset] at h
        cases onset with
        | none => cases h
        | some onset =>
          have hplain := lastOnset_spec (show (o.lastOnset wall (charge budget 1).1).2 = some onset by rw [honset])
          rw [ih h, hplain]
          rfl

/-- A local time in UTC, at any cost. -/
def plainToUtc (zone : Zone) (wall : NaiveDateTime) : Option NaiveDateTime :=
  (zone.offsetAfter wall (plainLatest wall zone.observances none)).bind fun offset =>
    wall.checkedSubSigned (seconds offset.val)

theorem toUtc_spec {zone : Zone} {wall : NaiveDateTime} {budget : Nat} {utc : Option NaiveDateTime}
    (h : (zone.toUtc wall budget).2 = some utc) : utc = plainToUtc zone wall := by
  obtain ⟨offset, hoffset, rfl⟩ := Option.map_eq_some_iff.mp h
  obtain ⟨latest, hlatest, rfl⟩ := Option.map_eq_some_iff.mp hoffset
  rw [latestOnset_spec hlatest]
  rfl

/-- A day of a clock. -/
def dayNanos : Int := 86400000000000

/-- Less than a day apart, but for a leap second. -/
def WithinDay (wall utc : NaiveDateTime) : Prop := wall.nanos ≤ utc.nanos + dayNanos ∧ utc.nanos ≤ wall.nanos + dayNanos

theorem WithinDay.refl (wall : NaiveDateTime) : WithinDay wall wall := by
  unfold WithinDay dayNanos
  omega

theorem plainToUtc_within {zone : Zone} {wall utc : NaiveDateTime} (h : plainToUtc zone wall = some utc) :
    WithinDay wall utc := by
  obtain ⟨offset, -, hutc⟩ := Option.bind_eq_some_iff.mp h
  have hnanos := NaiveDateTime.nanos_checkedSubSigned hutc
  have hoffset := offset.property
  unfold seconds at hnanos
  unfold WithinDay dayNanos
  omega

/-! ## A budget that is enough -/

theorem lastOnset_enough (o : Observance) (wall : NaiveDateTime) :
    ∃ cost, ∀ budget, cost ≤ budget → (o.lastOnset wall budget).2 = some (plainLastOnset o wall) ∧
      budget ≤ (o.lastOnset wall budget).1 + cost := by
  have hfound : ∃ cost, ∀ budget, cost ≤ budget → (o.lastOnset wall budget).2.isSome = true ∧
      budget ≤ (o.lastOnset wall budget).1 + cost := by
    unfold Observance.lastOnset
    cases o.start with
    | none => exact ⟨0, fun budget _ => ⟨rfl, le_rfl⟩⟩
    | some start =>
      dsimp only
      split
      · exact ⟨0, fun budget _ => ⟨rfl, le_rfl⟩⟩
      · cases o.rule with
        | none => exact ⟨0, fun budget _ => ⟨rfl, le_rfl⟩⟩
        | some rule =>
          obtain ⟨cost, hcost⟩ := walk_enough (o.visitOnset rule wall) rule start wall (Observance.walkStart rule wall)
          refine ⟨cost, fun budget hbudget => ?_⟩
          obtain ⟨hdone, hleft⟩ := hcost (Observance.later (o.listed wall) start) budget hbudget
          dsimp only
          rw [if_pos hdone]
          exact ⟨rfl, hleft⟩
  obtain ⟨cost, hcost⟩ := hfound
  refine ⟨cost, fun budget hbudget => ?_⟩
  obtain ⟨hsome, hleft⟩ := hcost budget hbudget
  obtain ⟨last, hlast⟩ := Option.isSome_iff_exists.mp hsome
  rw [← lastOnset_spec hlast]
  exact ⟨hlast, hleft⟩

/-- Each observance costs a step and the walk of its rule. -/
theorem latestOnset_enough (wall : NaiveDateTime) (observances : List Observance) :
    ∃ cost, ∀ latest budget, cost ≤ budget →
      (Zone.latestOnset wall observances latest budget).2 = some (plainLatest wall observances latest) ∧
        budget ≤ (Zone.latestOnset wall observances latest budget).1 + cost := by
  induction observances with
  | nil => exact ⟨0, fun latest budget _ => ⟨rfl, le_rfl⟩⟩
  | cons o rest ih =>
    obtain ⟨cost, hcost⟩ := lastOnset_enough o wall
    obtain ⟨costRest, hrest⟩ := ih
    refine ⟨1 + cost + costRest, fun latest budget hbudget => ?_⟩
    obtain ⟨honset, hleft⟩ := hcost (budget - 1) (by omega)
    rw [Zone.latestOnset, charge_of_le (show 1 ≤ budget by omega)]
    cases hfound : o.lastOnset wall (budget - 1) with
    | mk left onset =>
      rw [hfound] at honset hleft
      dsimp only at honset hleft
      obtain ⟨hlatest, hleft'⟩ := hrest (Zone.latestOf latest o (plainLastOnset o wall)) left (by omega)
      have hpaid : ¬(!true) = true := by decide
      rw [if_neg hpaid, honset]
      exact ⟨hlatest, by dsimp only; omega⟩

theorem toUtc_enough (zone : Zone) (wall : NaiveDateTime) :
    ∃ cost, ∀ budget, cost ≤ budget → (zone.toUtc wall budget).2 = some (plainToUtc zone wall) ∧
      budget ≤ (zone.toUtc wall budget).1 + cost := by
  obtain ⟨cost, hcost⟩ := latestOnset_enough wall zone.observances
  refine ⟨cost, fun budget hbudget => ?_⟩
  obtain ⟨hlatest, hleft⟩ := hcost none budget hbudget
  refine ⟨?_, hleft⟩
  unfold Zone.toUtc Zone.offsetAt
  dsimp only
  rw [hlatest]
  rfl

end ZoneLookup
