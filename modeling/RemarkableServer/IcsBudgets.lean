import RemarkableServer.IcsWalk

/-!
# Series with any budgets

Whatever the budgets are, a conversion that has a result has the plain one, and a walk keeps
some of the occurrences that it would keep at no cost. And budgets that are large enough let
everything be converted and kept.
-/
namespace IcsBudgets

open RustText Chrono Recurrence RecurrenceWalk RecurrenceCost TimeZone ZoneLookup Ics IcsPlain IcsWalk

/-! ## Conversions -/

/-- Zones of a table whose budget has not run out. -/
structure Solvent (table : ZoneTable) (zones : Zones) (cost : Nat) : Prop where
  byId : zones.byId = table
  whole : zones.exhausted = false
  paid : cost ≤ zones.stepsLeft

/-- A conversion that has no result but the plain one, and has it at a known cost. -/
structure Priced {α : Type} (table : ZoneTable) (f : Zones → Converted α) (plain : Option α) : Prop where
  byId : ∀ zones, zones.byId = table → (f zones).1.byId = table
  sound : ∀ zones a, zones.byId = table → (f zones).2 = some a → plain = some a
  enough : ∀ a, plain = some a → ∃ cost, ∀ rest zones, Solvent table zones (cost + rest) →
    (f zones).2 = some a ∧ Solvent table (f zones).1 rest

variable {table : ZoneTable} {α β : Type}

theorem Priced.done (plain : Option α) : Priced table (fun zones => (zones, plain)) plain := by
  refine ⟨fun _ h => h, fun _ _ _ h => h, fun a ha => ⟨0, fun rest zones h => ⟨ha, ?_⟩⟩⟩
  rwa [Nat.zero_add] at h

theorem Priced.andThen {f : Zones → Converted α} {plain : Option α} {g : Zones → α → Converted β} {next : α → Option β}
    (hf : Priced table f plain) (hg : ∀ a, Priced table (fun zones => g zones a) (next a)) :
    Priced table (fun zones => (f zones).andThen g) (plain.bind next) := by
  unfold Converted.andThen
  constructor
  · intro zones hzones
    have hbyId := hf.byId zones hzones
    cases hfound : f zones with
    | mk zones' found =>
      rw [hfound] at hbyId
      cases found with
      | none => exact hbyId
      | some a => exact (hg a).byId zones' hbyId
  · intro zones b hzones hb
    have hbyId := hf.byId zones hzones
    have hsound := hf.sound zones
    cases hfound : f zones with
    | mk zones' found =>
      rw [hfound] at hbyId hb hsound
      cases found with
      | none => cases hb
      | some a =>
        rw [hsound a hzones rfl]
        exact (hg a).sound zones' b hbyId hb
  · intro b hb
    obtain ⟨a, ha, hnext⟩ := Option.bind_eq_some_iff.mp hb
    obtain ⟨cost, hcost⟩ := hf.enough a ha
    obtain ⟨cost', hcost'⟩ := (hg a).enough b hnext
    refine ⟨cost + cost', fun rest zones h => ?_⟩
    obtain ⟨hfound, hrest⟩ := hcost (cost' + rest) zones (by rwa [← Nat.add_assoc])
    cases hpair : f zones with
    | mk zones' found =>
      rw [hpair] at hfound hrest
      dsimp only at hfound hrest ⊢
      rw [hfound]
      exact hcost' rest zones' hrest

theorem Solvent.note {zones : Zones} {cost : Nat} (h : Solvent table zones cost) (tzid : Text) :
    Solvent table (zones.note tzid) cost := by
  refine ⟨(byId_note zones tzid).trans h.byId, (exhausted_note zones tzid).trans h.whole, ?_⟩
  unfold Zones.note
  split <;> exact h.paid

theorem wallToUtc_zone {tzid : Text} {zone : Zone} (hlong : ¬maxTzidBytes < byteLen tzid) (hzone : table tzid = some zone)
    (wall : NaiveDateTime) {zones : Zones} (hzones : zones.byId = table) :
    zones.wallToUtc wall (some tzid) =
      match (zone.toUtc wall zones.stepsLeft).2 with
      | some (some utc) => ({ zones with stepsLeft := (zone.toUtc wall zones.stepsLeft).1 }, some utc)
      | some none => ({ zones with stepsLeft := (zone.toUtc wall zones.stepsLeft).1 }.note tzid, some wall)
      | none => ({ zones with stepsLeft := (zone.toUtc wall zones.stepsLeft).1, exhausted := true }, none) := by
  cases hzones
  unfold Zones.wallToUtc
  dsimp only
  cases hfound : (zone.toUtc wall zones.stepsLeft).2 with
  | none => simp only [if_neg hlong, hzone, hfound]
  | some utc =>
    cases utc with
    | none => simp only [if_neg hlong, hzone, hfound]
    | some utc => simp only [if_neg hlong, hzone, hfound]

/-- A lookup in a zone of the table. -/
theorem priced_zone {tzid : Text} {zone : Zone} (hlong : ¬maxTzidBytes < byteLen tzid) (hzone : table tzid = some zone)
    (wall : NaiveDateTime) :
    Priced table (fun zones => zones.wallToUtc wall (some tzid)) (some ((plainToUtc zone wall).getD wall)) := by
  have hlookup := fun (zones : Zones) (h : zones.byId = table) => wallToUtc_zone hlong hzone wall h
  constructor
  · intro zones hzones
    rw [hlookup zones hzones]
    cases (zone.toUtc wall zones.stepsLeft).2 with
    | none => exact hzones
    | some utc =>
      cases utc with
      | none => exact (byId_note _ tzid).trans hzones
      | some utc => exact hzones
  · intro zones utc hzones hutc
    rw [hlookup zones hzones] at hutc
    cases hfound : (zone.toUtc wall zones.stepsLeft).2 with
    | none =>
      rw [hfound] at hutc
      cases hutc
    | some found =>
      rw [← toUtc_spec hfound]
      rw [hfound] at hutc
      cases found with
      | none => exact hutc
      | some found => exact hutc
  · obtain ⟨cost, hcost⟩ := toUtc_enough zone wall
    refine fun utc hutc => ⟨cost, fun rest zones h => ?_⟩
    obtain ⟨hzones, hwhole, hpaid⟩ := h
    obtain ⟨hfound, hleft⟩ := hcost zones.stepsLeft (by omega)
    have hrest : Solvent table { zones with stepsLeft := (zone.toUtc wall zones.stepsLeft).1 } rest :=
      ⟨hzones, hwhole, by dsimp only; omega⟩
    rw [hlookup zones hzones, hfound]
    cases hplain : plainToUtc zone wall with
    | none =>
      rw [hplain] at hutc
      exact ⟨hutc, hrest.note tzid⟩
    | some found =>
      rw [hplain] at hutc
      exact ⟨hutc, hrest⟩

theorem priced_wallToUtc (table : ZoneTable) (wall : NaiveDateTime) (tzid : Option Text) :
    Priced table (fun zones => zones.wallToUtc wall tzid) (plainUtc table (.wall wall tzid)) := by
  cases tzid with
  | none => exact Priced.done _
  | some tzid =>
    unfold plainUtc wallUtc tooLong
    by_cases hlong : maxTzidBytes < byteLen tzid
    · unfold Zones.wallToUtc
      simp only [if_pos hlong]
      rw [if_pos (by simpa using hlong)]
      exact ⟨fun _ h => h, fun _ _ _ h => (nomatch h), fun _ h => nomatch h⟩
    · dsimp only
      rw [if_neg (by simpa using hlong), Option.bind_some]
      cases hzone : table tzid with
      | none =>
        have hlookup : ∀ zones : Zones, zones.byId = table →
            zones.wallToUtc wall (some tzid) = (zones.note tzid, some wall) := by
          rintro zones rfl
          unfold Zones.wallToUtc
          dsimp only
          rw [if_neg hlong, hzone]
        constructor
        · intro zones hzones
          rw [hlookup zones hzones]
          exact (byId_note zones tzid).trans hzones
        · intro zones utc hzones hutc
          rw [hlookup zones hzones] at hutc
          exact hutc
        · refine fun utc hutc => ⟨0, fun rest zones h => ?_⟩
          rw [Nat.zero_add] at h
          rw [hlookup zones h.byId]
          exact ⟨hutc, h.note tzid⟩
      | some zone => exact priced_zone hlong hzone wall

theorem priced_utc (table : ZoneTable) (time : IcsTime) :
    Priced table (fun zones => zones.utc time) (plainUtc table time) := by
  cases time with
  | date d => exact Priced.done _
  | utc time => exact Priced.done _
  | wall time tzid => exact priced_wallToUtc table time tzid

theorem priced_times (table : ZoneTable) (e : VEventFields) : Priced table e.times (plainTimes table e) := by
  unfold VEventFields.times plainTimes
  cases e.start with
  | none => exact Priced.done _
  | some startTime =>
    refine (priced_utc table startTime).andThen fun start => ?_
    cases e.stop with
    | none => exact Priced.done _
    | some stop => exact (priced_utc table stop).andThen fun stop => Priced.done _

theorem priced_excluded (table : ZoneTable) (e : VEventFields) : Priced table e.excluded (plainAll table e.exdates) := by
  unfold VEventFields.excluded
  induction e.exdates with
  | nil => exact Priced.done _
  | cons time rest ih =>
    unfold VEventFields.convertAll plainAll
    exact (priced_utc table time).andThen fun utc => ih.andThen fun utcs => Priced.done _

/-! ## What a walk keeps -/

variable {series : Series} {rule : Rule} {tzid : Option Text} {w : Walking} {wall : NaiveDateTime}
variable {utcOf : NaiveDateTime → NaiveDateTime}

/-- The local times of the occurrences that the visits of a walk find. -/
def keptWalls (series : Series) (rule : Rule) (utcOf : NaiveDateTime → NaiveDateTime) :
    List NaiveDateTime → List NaiveDateTime
  | [] => []
  | wall :: rest =>
    if early series wall then keptWalls series rule utcOf rest
    else if !rule.untilAllows wall (utcOf wall) || series.windowEnd ≤ utcOf wall then []
    else if kept series (utcOf wall, series.length) then wall :: keptWalls series rule utcOf rest
    else keptWalls series rule utcOf rest

theorem visitedStarts_eq_map (walls : List NaiveDateTime) :
    visitedStarts series rule utcOf walls = (keptWalls series rule utcOf walls).map utcOf := by
  induction walls with
  | nil => rfl
  | cons wall rest ih =>
    rw [visitedStarts, keptWalls]
    split
    · exact ih
    · split
      · rfl
      · split
        · rw [ih, List.map_cons]
        · exact ih

theorem keptWalls_sublist (walls : List NaiveDateTime) : (keptWalls series rule utcOf walls).Sublist walls := by
  induction walls with
  | nil => exact List.Sublist.refl _
  | cons wall rest ih =>
    rw [keptWalls]
    split
    · exact ih.cons wall
    · split
      · exact List.nil_sublist _
      · split
        · exact ih.cons_cons wall
        · exact ih.cons wall

/-- A walk that ends sooner keeps fewer. -/
theorem keptWalls_take (walls : List NaiveDateTime) (n : Nat) :
    (keptWalls series rule utcOf (walls.take n)).Sublist (keptWalls series rule utcOf walls) := by
  induction walls generalizing n with
  | nil => rw [List.take_nil]
  | cons wall rest ih =>
    cases n with
    | zero => exact List.nil_sublist _
    | succ n =>
      rw [List.take_succ_cons, keptWalls, keptWalls]
      split
      · exact ih n
      · split
        · exact List.Sublist.refl _
        · split
          · exact (ih n).cons_cons wall
          · exact ih n

/-- On the way to a local time of a walk in order, every occurrence is days before the window, or within the end of the
rule and before the end of the window. -/
def Passable (series : Series) (rule : Rule) (utcOf : NaiveDateTime → NaiveDateTime) (wall : NaiveDateTime) : Prop :=
  early series wall = true ∨ (rule.untilAllows wall (utcOf wall) = true ∧ utcOf wall < series.windowEnd)

theorem mem_keptWalls {walls : List NaiveDateTime} (hsorted : walls.Pairwise (· < ·)) :
    wall ∈ keptWalls series rule utcOf walls ↔
      wall ∈ walls ∧ early series wall = false ∧ kept series (utcOf wall, series.length) = true ∧
        ∀ wall' ∈ walls, wall' ≤ wall → Passable series rule utcOf wall' := by
  induction walls with
  | nil => exact iff_of_false (fun h => nomatch h) fun h => nomatch h.1
  | cons first rest ih =>
    obtain ⟨hfirst, hrest⟩ := List.pairwise_cons.mp hsorted
    have hmem := ih hrest
    -- The first of the times is passed on the way to each of the others.
    have hpass : Passable series rule utcOf first →
        ((∀ wall' ∈ first :: rest, wall' ≤ wall → Passable series rule utcOf wall') ↔
          ∀ wall' ∈ rest, wall' ≤ wall → Passable series rule utcOf wall') := by
      intro hfirst'
      rw [List.forall_mem_cons]
      exact and_iff_right fun _ => hfirst'
    rw [keptWalls]
    by_cases hearly : early series first = true
    · rw [if_pos hearly, hmem, hpass (Or.inl hearly), List.mem_cons]
      constructor
      · rintro ⟨hin, hrest'⟩
        exact ⟨Or.inr hin, hrest'⟩
      · rintro ⟨rfl | hin, hlate, hrest'⟩
        · rw [hearly] at hlate
          cases hlate
        · exact ⟨hin, hlate, hrest'⟩
    · rw [if_neg hearly]
      by_cases hstops : (!rule.untilAllows first (utcOf first) || series.windowEnd ≤ utcOf first) = true
      · rw [if_pos hstops]
        refine iff_of_false (fun h => nomatch h) ?_
        rintro ⟨hin, -, -, hall⟩
        have hle : first ≤ wall := by
          rcases List.mem_cons.mp hin with rfl | hin
          · exact le_rfl
          · exact (hfirst wall hin).le
        obtain h | ⟨hallowed, hbefore⟩ := hall first List.mem_cons_self hle
        · exact hearly h
        · rw [hallowed, Bool.not_true, Bool.false_or, decide_eq_true_eq] at hstops
          exact absurd hbefore (not_lt.mpr hstops)
      · rw [if_neg hstops]
        have hgoes : Passable series rule utcOf first := by
          rw [Bool.or_eq_true, not_or, Bool.not_eq_true, Bool.not_eq_false', decide_eq_true_eq, not_le] at hstops
          exact Or.inr hstops
        rw [hpass hgoes, List.mem_cons]
        by_cases hkept : kept series (utcOf first, series.length) = true
        · rw [if_pos hkept, List.mem_cons, hmem]
          constructor
          · rintro (rfl | ⟨hin, hrest'⟩)
            · refine ⟨Or.inl rfl, Bool.eq_false_iff.mpr hearly, hkept, fun wall' hin hle => ?_⟩
              exact absurd (hfirst wall' hin) (not_lt.mpr hle)
            · exact ⟨Or.inr hin, hrest'⟩
          · rintro ⟨rfl | hin, hrest'⟩
            · exact Or.inl rfl
            · exact Or.inr ⟨hin, hrest'⟩
        · rw [if_neg hkept, hmem]
          constructor
          · rintro ⟨hin, hrest'⟩
            exact ⟨Or.inr hin, hrest'⟩
          · rintro ⟨rfl | hin, hlate, hkept', hrest'⟩
            · exact absurd hkept' hkept
            · exact ⟨hin, hlate, hkept', hrest'⟩

/-! ## Walks cut short -/

theorem push_starts (start : NaiveDateTime) (length : Int) :
    (series.push w start length).1.starts =
      w.starts ++ if (series.push w start length).2 then [(start, length)] else [] := by
  unfold Series.push
  dsimp only
  split
  · rfl
  · exact (List.append_nil _).symm

/-- What one visit does, whatever the budgets. -/
theorem visit_cases :
    (series.visit rule tzid w wall).1.zones.byId = w.zones.byId ∧
      let utc := wallUtc w.zones.byId tzid wall
      if early series wall then series.visit rule tzid w wall = (w, true)
      else if !rule.untilAllows wall utc || series.windowEnd ≤ utc then
        (series.visit rule tzid w wall).2 = false ∧ (series.visit rule tzid w wall).1.starts = w.starts
      else
        ((series.visit rule tzid w wall).2 = false ∧ (series.visit rule tzid w wall).1.starts = w.starts) ∨
          ((series.visit rule tzid w wall).2 = true ∧ (series.visit rule tzid w wall).1.starts =
            w.starts ++ if kept series (utc, series.length) then [(utc, series.length)] else []) := by
  refine ⟨(extends_visit series rule tzid w wall).byId, ?_⟩
  have hsound := (priced_wallToUtc w.zones.byId wall tzid).sound w.zones
  dsimp only
  unfold Series.visit early kept
  split
  · rfl
  · cases hconverted : w.zones.wallToUtc wall tzid with
    | mk zones utc =>
      rw [hconverted] at hsound
      cases utc with
      | none =>
        split
        · exact ⟨rfl, rfl⟩
        · exact Or.inl ⟨rfl, rfl⟩
      | some utc =>
        have hutc : utc = wallUtc w.zones.byId tzid wall := by
          have hplain := hsound utc rfl rfl
          unfold plainUtc at hplain
          dsimp only at hplain
          split at hplain
          · cases hplain
          · exact (Option.some.inj hplain).symm
        rw [← hutc]
        dsimp only
        split
        · exact ⟨rfl, rfl⟩
        · split
          next hkept =>
            rw [push_starts]
            cases hpaid : (series.push { w with zones := zones } utc series.length).2 with
            | false => exact Or.inl ⟨rfl, List.append_nil _⟩
            | true => exact Or.inr ⟨rfl, rfl⟩
          next hkept => exact Or.inr ⟨rfl, (List.append_nil _).symm⟩

/-- Whatever the budgets, visits keep some of the occurrences, in order. -/
theorem visitAll_starts (walls : List NaiveDateTime) :
    ∃ walls' : List NaiveDateTime, walls'.Sublist (keptWalls series rule (wallUtc w.zones.byId tzid) walls) ∧
      (visitAll (series.visit rule tzid) w walls).1.starts =
        w.starts ++ walls'.map fun wall => (wallUtc w.zones.byId tzid wall, series.length) := by
  induction walls generalizing w with
  | nil => exact ⟨[], List.Sublist.refl _, (List.append_nil _).symm⟩
  | cons wall rest ih =>
    obtain ⟨hbyId, hvisit⟩ := @visit_cases series rule tzid w wall
    have hrest := @ih (series.visit rule tzid w wall).1
    rw [hbyId] at hrest
    obtain ⟨walls', hwalls', hstarts⟩ := hrest
    rw [visitAll, keptWalls]
    dsimp only at hvisit
    split at hvisit
    next hearly =>
      rw [hvisit] at hstarts ⊢
      rw [if_pos rfl, if_pos hearly]
      exact ⟨walls', hwalls', hstarts⟩
    next hearly =>
      rw [if_neg hearly]
      split at hvisit
      next hstops =>
        have hend : ¬(series.visit rule tzid w wall).2 = true := Bool.not_eq_true _ ▸ hvisit.1
        rw [if_pos hstops, if_neg hend]
        exact ⟨[], List.Sublist.refl _, hvisit.2.trans (List.append_nil _).symm⟩
      next hgoes =>
        rw [if_neg hgoes]
        rcases hvisit with ⟨hend, hsame⟩ | ⟨hmore, hadded⟩
        · have hend : ¬(series.visit rule tzid w wall).2 = true := Bool.not_eq_true _ ▸ hend
          rw [if_neg hend]
          exact ⟨[], List.nil_sublist _, hsame.trans (List.append_nil _).symm⟩
        · rw [if_pos hmore, hstarts, hadded]
          split
          · refine ⟨wall :: walls', hwalls'.cons_cons wall, ?_⟩
            rw [List.map_cons, List.append_assoc]
            rfl
          · exact ⟨walls', hwalls', by rw [List.append_nil]⟩

/-! ## Budgets that are enough -/

/-- What is left is enough for so many lookups, and so many occurrences of the series. -/
structure Ample (table : ZoneTable) (series : Series) (w : Walking) (steps count : Nat) : Prop where
  zones : Solvent table w.zones steps
  whole : w.expansion.truncated = false
  instances : count ≤ w.expansion.instancesLeft
  bytes : count * series.bytes ≤ w.expansion.bytesLeft

theorem Ample.push {steps count : Nat} (h : Ample table series w steps (count + 1)) (start : NaiveDateTime) (length : Int) :
    Ample table series (series.push w start length).1 steps count := by
  obtain ⟨hzones, hwhole, hinstances, hbytes⟩ := h
  rw [Nat.succ_mul] at hbytes
  have htake : ¬(w.expansion.instancesLeft = 0 ∨ w.expansion.bytesLeft < series.bytes) := by omega
  unfold Series.push Expansion.take
  rw [if_neg htake]
  exact ⟨hzones, hwhole, by dsimp only; omega, by dsimp only; omega⟩

theorem Ample.fewer {steps count : Nat} (h : Ample table series w steps (count + 1)) : Ample table series w steps count := by
  obtain ⟨hzones, hwhole, hinstances, hbytes⟩ := h
  rw [Nat.succ_mul] at hbytes
  exact ⟨hzones, hwhole, by omega, by omega⟩

theorem visit_enough (table : ZoneTable) (series : Series) (rule : Rule) (hlong : tooLong tzid = false)
    (wall : NaiveDateTime) :
    ∃ cost, ∀ w steps count, Ample table series w (cost + steps) (count + 1) →
      Ample table series (series.visit rule tzid w wall).1 steps count := by
  have hplain : plainUtc table (.wall wall tzid) = some (wallUtc table tzid wall) := by
    unfold plainUtc
    dsimp only
    rw [hlong, if_neg Bool.false_ne_true]
  obtain ⟨cost, hcost⟩ := (priced_wallToUtc table wall tzid).enough _ hplain
  refine ⟨cost, fun w steps count h => ?_⟩
  obtain ⟨hfound, hrest⟩ := hcost steps w.zones h.zones
  unfold Series.visit
  split
  · have hsteps : steps ≤ w.zones.stepsLeft := (Nat.le_add_left steps cost).trans h.zones.paid
    exact ⟨⟨h.zones.byId, h.zones.whole, hsteps⟩, h.whole, h.fewer.instances, h.fewer.bytes⟩
  · cases hpair : w.zones.wallToUtc wall tzid with
    | mk zones utc =>
      rw [hpair] at hfound hrest
      dsimp only at hfound hrest ⊢
      rw [hfound]
      have hample : Ample table series { w with zones := zones } steps (count + 1) :=
        ⟨hrest, h.whole, h.instances, h.bytes⟩
      dsimp only
      split
      · exact hample.fewer
      · split
        · exact hample.push _ _
        · exact hample.fewer

theorem visitAll_enough (table : ZoneTable) (series : Series) (rule : Rule) (hlong : tooLong tzid = false)
    (walls : List NaiveDateTime) :
    ∃ cost, ∀ w, Ample table series w cost walls.length → Whole (visitAll (series.visit rule tzid) w walls).1 := by
  induction walls with
  | nil => exact ⟨0, fun w h => ⟨h.whole, h.zones.whole⟩⟩
  | cons wall rest ih =>
    obtain ⟨costRest, hrest⟩ := ih
    obtain ⟨cost, hcost⟩ := visit_enough table series rule hlong wall
    refine ⟨cost + costRest, fun w h => ?_⟩
    have hvisit := hcost w costRest rest.length h
    rw [visitAll]
    split
    · exact hrest _ hvisit
    · exact ⟨hvisit.whole, hvisit.zones.whole⟩

theorem walkRule_enough (table : ZoneTable) (series : Series) (rule : Rule) (anchor : NaiveDateTime)
    (hlong : tooLong tzid = false) :
    ∃ cost steps count, ∀ w, Ample table series w steps count → cost ≤ w.expansion.ruleStepsLeft →
      Whole (series.walkRule rule anchor tzid w) := by
  obtain ⟨cost, hcost⟩ := walk_enough (series.visit rule tzid) rule anchor series.walkEnd (walkAfter series rule)
  obtain ⟨steps, hsteps⟩ := visitAll_enough table series rule hlong
    (visited rule anchor (walkAfter series rule) series.walkEnd)
  refine ⟨cost, steps, (visited rule anchor (walkAfter series rule) series.walkEnd).length, fun w h hbudget => ?_⟩
  have hdone := (hcost w w.expansion.ruleStepsLeft hbudget).1
  have hwhole := hsteps w h
  rw [← walk_spec hdone] at hwhole
  unfold walkAfter at hdone hwhole
  unfold Series.walkRule
  refine ⟨?_, hwhole.2⟩
  dsimp only
  rw [hwhole.1, hdone]
  rfl

end IcsBudgets
