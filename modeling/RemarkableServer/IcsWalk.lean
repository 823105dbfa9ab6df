import RemarkableServer.IcsPlain

/-!
# The walk of a series

What the walk of a rule passes over does not overlap the window: what it skips is days before
it, and what lies past its end is past the window. So the walk finds the occurrences of the
rule that are in the window, neither cancelled nor moved, unless a budget cut it short.
-/
namespace IcsWalk

open RustText Chrono Recurrence RecurrenceWalk TimeZone ZoneLookup Ics IcsPlain

variable {series : Series} {rule : Rule} {tzid : Option Text} {w : Walking} {wall : NaiveDateTime}

/-! ## Steps that nothing cut short -/

/-- No budget has run out. -/
def Whole (w : Walking) : Prop := w.expansion.truncated = false ∧ w.zones.exhausted = false

def SameWindow (a b : Expansion) : Prop := b.start = a.start ∧ b.stop = a.stop

theorem SameWindow.trans {a b c : Expansion} (h : SameWindow a b) (h' : SameWindow b c) : SameWindow a c :=
  ⟨h'.1.trans h.1, h'.2.trans h.2⟩

/-- The zones and the window stay, and a budget that has run out is not forgotten. -/
structure Extends (w w' : Walking) : Prop where
  byId : w'.zones.byId = w.zones.byId
  window : SameWindow w.expansion w'.expansion
  whole : Whole w' → Whole w

theorem Extends.refl (w : Walking) : Extends w w := ⟨rfl, ⟨rfl, rfl⟩, id⟩

theorem Extends.trans {a b c : Walking} (h : Extends a b) (h' : Extends b c) : Extends a c :=
  ⟨h'.byId.trans h.byId, h.window.trans h'.window, fun hc => h.whole (h'.whole hc)⟩

theorem take_truncated {expansion : Expansion} {bytes : Nat} (h : (expansion.take bytes).1.truncated = false) :
    expansion.truncated = false ∧ (expansion.take bytes).2 = true := by
  unfold Expansion.take at h ⊢
  split at h
  · cases h
  next hpaid =>
    rw [if_neg hpaid]
    exact ⟨h, rfl⟩

theorem window_take (expansion : Expansion) (bytes : Nat) : SameWindow expansion (expansion.take bytes).1 := by
  unfold Expansion.take
  split <;> exact ⟨rfl, rfl⟩

theorem extends_push (series : Series) (w : Walking) (start : NaiveDateTime) (length : Int) :
    Extends w (series.push w start length).1 :=
  ⟨rfl, window_take w.expansion series.bytes, fun h => ⟨(take_truncated h.1).1, h.2⟩⟩

theorem push_spec {start : NaiveDateTime} {length : Int} (h : Whole (series.push w start length).1) :
    (series.push w start length).2 = true ∧ (series.push w start length).1.starts = w.starts ++ [(start, length)] := by
  have htaken := (take_truncated h.1).2
  refine ⟨htaken, ?_⟩
  unfold Series.push
  dsimp only
  rw [if_pos htaken]

/-- A lookup that was not cut short has a result. -/
theorem wallToUtc_eq {zones : Zones} (h : (zones.wallToUtc wall tzid).1.exhausted = false) :
    (zones.wallToUtc wall tzid).2 = some (wallUtc zones.byId tzid wall) := by
  have hplain := ((converts_wallToUtc zones wall tzid).result h).2
  rw [hplain]
  unfold plainUtc
  dsimp only
  split
  next hlong =>
    unfold tooLong at hlong
    unfold Zones.wallToUtc at h
    cases tzid with
    | none => cases hlong
    | some tzid =>
      have hlong' : maxTzidBytes < byteLen tzid := of_decide_eq_true hlong
      dsimp only at h
      rw [if_pos hlong'] at h
      cases h
  · rfl

/-- An occurrence days before the window. -/
def early (series : Series) (wall : NaiveDateTime) : Bool := series.walkStart.any fun date => wall.date.day < date.day

theorem extends_visit (series : Series) (rule : Rule) (tzid : Option Text) (w : Walking) (wall : NaiveDateTime) :
    Extends w (series.visit rule tzid w wall).1 := by
  have hbyId := (converts_wallToUtc w.zones wall tzid).byId
  have hresult := (converts_wallToUtc w.zones wall tzid).result
  unfold Series.visit
  split
  · exact Extends.refl w
  · cases hconverted : w.zones.wallToUtc wall tzid with
    | mk zones utc =>
      rw [hconverted] at hbyId hresult
      have hzones : Extends w { w with zones := zones } := ⟨hbyId, ⟨rfl, rfl⟩, fun h => ⟨h.1, (hresult h.2).1⟩⟩
      cases utc with
      | none => exact hzones
      | some utc =>
        dsimp only
        split
        · exact hzones
        · split
          · exact hzones.trans (extends_push series _ utc series.length)
          · exact hzones

/-- What one visit does, if nothing cut it short. -/
theorem visit_spec (hwhole : Whole (series.visit rule tzid w wall).1) :
    let utc := wallUtc w.zones.byId tzid wall
    if early series wall then series.visit rule tzid w wall = (w, true)
    else if !rule.untilAllows wall utc || series.windowEnd ≤ utc then
      (series.visit rule tzid w wall).2 = false ∧ (series.visit rule tzid w wall).1.starts = w.starts
    else
      (series.visit rule tzid w wall).2 = true ∧ (series.visit rule tzid w wall).1.starts =
        w.starts ++ if kept series (utc, series.length) then [(utc, series.length)] else [] := by
  dsimp only
  unfold Series.visit at hwhole ⊢
  unfold early kept
  split
  · rfl
  next hearly =>
    rw [if_neg hearly] at hwhole
    cases hconverted : w.zones.wallToUtc wall tzid with
    | mk zones utc =>
      have heq := @wallToUtc_eq tzid wall w.zones
      rw [hconverted] at hwhole heq
      cases utc with
      | none => cases heq hwhole.2
      | some utc =>
        dsimp only at hwhole heq ⊢
        have hzones : zones.exhausted = false := by
          split at hwhole
          · exact hwhole.2
          · split at hwhole
            · exact hwhole.2
            · exact hwhole.2
        rw [← Option.some.inj (heq hzones)]
        split
        · exact ⟨rfl, rfl⟩
        next hgoes =>
          rw [if_neg hgoes] at hwhole
          split
          next hkept =>
            rw [if_pos hkept] at hwhole
            exact push_spec hwhole
          next hkept => exact ⟨rfl, (List.append_nil _).symm⟩

/-! ## The walk of a rule -/

/-- The occurrences in UTC that the visits of a walk find. -/
def visitedStarts (series : Series) (rule : Rule) (utcOf : NaiveDateTime → NaiveDateTime) : List NaiveDateTime → List NaiveDateTime
  | [] => []
  | wall :: rest =>
    if early series wall then visitedStarts series rule utcOf rest
    else if !rule.untilAllows wall (utcOf wall) || series.windowEnd ≤ utcOf wall then []
    else if kept series (utcOf wall, series.length) then utcOf wall :: visitedStarts series rule utcOf rest
    else visitedStarts series rule utcOf rest

theorem extends_visitAll (series : Series) (rule : Rule) (tzid : Option Text) (w : Walking) (walls : List NaiveDateTime) :
    Extends w (visitAll (series.visit rule tzid) w walls).1 := by
  induction walls generalizing w with
  | nil => exact Extends.refl w
  | cons wall rest ih =>
    have hvisit := extends_visit series rule tzid w wall
    rw [visitAll]
    split
    · exact hvisit.trans (ih _)
    · exact hvisit

theorem visitAll_spec {walls : List NaiveDateTime} (hwhole : Whole (visitAll (series.visit rule tzid) w walls).1) :
    (visitAll (series.visit rule tzid) w walls).1.starts =
      w.starts ++ (visitedStarts series rule (wallUtc w.zones.byId tzid) walls).map fun utc => (utc, series.length) := by
  induction walls generalizing w with
  | nil => exact (List.append_nil _).symm
  | cons wall rest ih =>
    have hfirst : Whole (series.visit rule tzid w wall).1 := by
      rw [visitAll] at hwhole
      split at hwhole
      · exact (extends_visitAll series rule tzid _ rest).whole hwhole
      · exact hwhole
    have hspec := visit_spec hfirst
    have hbyId := (extends_visit series rule tzid w wall).byId
    rw [visitAll] at hwhole ⊢
    rw [visitedStarts]
    dsimp only at hspec
    split at hspec
    next hearly =>
      rw [hspec] at hwhole ⊢
      rw [if_pos rfl] at hwhole ⊢
      rw [if_pos hearly]
      exact ih hwhole
    next hearly =>
      rw [if_neg hearly]
      split at hspec
      next hstops =>
        rw [if_neg (by rw [hspec.1]; exact Bool.false_ne_true), if_pos hstops]
        exact hspec.2.trans (List.append_nil _).symm
      next hgoes =>
        rw [if_pos hspec.1] at hwhole ⊢
        rw [if_neg hgoes, ih hwhole, hspec.2, hbyId]
        split
        · rw [List.map_cons, List.append_assoc]
          rfl
        · rw [List.append_nil]

/-! ## What a walk may pass over -/

theorem not_inWindow_of_before {utc : NaiveDateTime} {length : Int}
    (h : utc.nanos + max length 0 + 2000000000 ≤ series.windowStart.nanos) : series.inWindow utc length = false := by
  have hstart : utc < series.windowStart := NaiveDateTime.lt_of_nanos (by omega)
  have hend : endOf utc length ≤ series.windowStart := by
    unfold endOf
    cases hadd : utc.checkedAddSigned length with
    | none => exact hstart.le
    | some stop =>
      have hnanos := NaiveDateTime.nanos_checkedAddSigned hadd
      rw [Option.getD_some]
      exact (NaiveDateTime.lt_of_nanos (by omega)).le
  unfold Series.inWindow overlaps
  simp [not_lt.mpr hend, not_le.mpr hstart]

theorem not_inWindow_of_after {utc : NaiveDateTime} {length : Int}
    (h : series.windowEnd.nanos + 1000000000 ≤ utc.nanos) : series.inWindow utc length = false := by
  have hend : ¬utc < series.windowEnd := not_lt.mpr (NaiveDateTime.lt_of_nanos h).le
  unfold Series.inWindow overlaps
  simp [hend]

/-- An occurrence days before the window ends before it. -/
theorem early_bound {utc : NaiveDateTime} (hlength : -2000000000 ≤ series.length) (hearly : early series wall = true)
    (hnear : WithinDay wall utc) : utc.nanos + max series.length 0 + 5000000000 ≤ series.windowStart.nanos := by
  unfold early at hearly
  obtain ⟨date, hdate⟩ : ∃ date, series.walkStart = some date := by
    cases hstart : series.walkStart with
    | none =>
      rw [hstart] at hearly
      cases hearly
    | some date => exact ⟨date, rfl⟩
  rw [hdate] at hearly
  obtain ⟨time, htime, rfl⟩ := Option.map_eq_some_iff.mp hdate
  obtain ⟨before, hbefore, hslack⟩ := Option.bind_eq_some_iff.mp htime
  have hday : wall.date.day < time.date.day := of_decide_eq_true hearly
  have hbefore := NaiveDateTime.nanos_checkedSubSigned hbefore
  have hslack := NaiveDateTime.nanos_checkedSubSigned hslack
  have hsecs := wall.time.secs.isLt
  have hfrac := wall.time.frac.isLt
  have hwall : wall.nanos < time.nanos + 1000000000 := by
    unfold NaiveDateTime.nanos
    omega
  unfold WithinDay dayNanos at hnear
  unfold days seconds at hslack
  omega

/-- With two days to spare, an occurrence past the end of the walk is past the window. -/
theorem not_inWindow_of_past {utc : NaiveDateTime} {length : Int}
    (hrange : (series.windowEnd.checkedAddSigned (days 2)).isSome = true) (hpast : series.walkEnd < wall)
    (hnear : WithinDay wall utc) : series.inWindow utc length = false := by
  obtain ⟨stop, hstop⟩ := Option.isSome_iff_exists.mp hrange
  unfold Series.walkEnd at hpast
  rw [hstop, Option.getD_some] at hpast
  have hnanos := NaiveDateTime.nanos_checkedAddSigned hstop
  have hlater := NaiveDateTime.nanos_lt_of_le hpast.le
  refine not_inWindow_of_after ?_
  unfold WithinDay dayNanos at hnear
  unfold days seconds at hnanos
  omega

theorem kept_of_not_inWindow {found : NaiveDateTime × Int} (h : series.inWindow found.1 found.2 = false) :
    kept series found = false := by
  unfold kept
  rw [h, Bool.false_and]

variable {utcOf : NaiveDateTime → NaiveDateTime}

/-- After an occurrence before the window that is past the end of the rule, none is both within the end and in the
window. -/
theorem not_kept_of_ended {wall' : NaiveDateTime} (hlength : -2000000000 ≤ series.length)
    (hnear : ∀ wall, WithinDay wall (utcOf wall)) (hearly : early series wall = true)
    (hended : rule.untilAllows wall (utcOf wall) = false) (hlater : wall < wall')
    (hallowed : rule.untilAllows wall' (utcOf wall') = true) : kept series (utcOf wall', series.length) = false := by
  unfold Rule.untilAllows at hended hallowed
  cases hbound : rule.bound with
  | none =>
    rw [hbound] at hended
    cases hended
  | some bound =>
    rw [hbound] at hended hallowed
    cases bound with
    | utc bound =>
      have hended : bound < utcOf wall := not_le.mp (of_decide_eq_false hended)
      have hallowed : utcOf wall' ≤ bound := of_decide_eq_true hallowed
      have hearlier := NaiveDateTime.nanos_lt_of_le (hallowed.trans hended.le)
      have hbefore := early_bound hlength hearly (hnear wall)
      exact kept_of_not_inWindow (not_inWindow_of_before (by dsimp only; omega))
    | wall bound =>
      have hended : bound < wall := not_le.mp (of_decide_eq_false hended)
      have hallowed : wall' ≤ bound := of_decide_eq_true hallowed
      exact absurd (hended.trans hlater) (not_lt.mpr hallowed)
    | date bound =>
      have hended : ¬wall.date.day ≤ bound.day := of_decide_eq_false hended
      have hallowed : wall'.date.day ≤ bound.day := of_decide_eq_true hallowed
      have hsecs := wall.time.secs.isLt
      have hsecs' := wall'.time.secs.isLt
      have hfrac := wall.time.frac.isLt
      have hfrac' := wall'.time.frac.isLt
      rw [NaiveDateTime.lt_iff] at hlater
      unfold NaiveDateTime.key at hlater
      omega

theorem visitedStarts_eq_nil {walls : List NaiveDateTime}
    (h : ∀ wall ∈ walls, rule.untilAllows wall (utcOf wall) = true → kept series (utcOf wall, series.length) = false) :
    visitedStarts series rule utcOf walls = [] := by
  induction walls with
  | nil => rfl
  | cons wall rest ih =>
    have hrest := ih fun wall hwall => h wall (List.mem_cons_of_mem _ hwall)
    rw [visitedStarts]
    split
    · exact hrest
    · split
      · rfl
      next hgoes =>
        rw [Bool.or_eq_true, not_or, Bool.not_eq_true, Bool.not_eq_false'] at hgoes
        rw [h wall List.mem_cons_self hgoes.1]
        exact hrest

/-- The occurrences within the end of the rule. -/
def withinEnd (rule : Rule) (utcOf : NaiveDateTime → NaiveDateTime) (walls : List NaiveDateTime) : List NaiveDateTime :=
  walls.takeWhile fun wall => rule.untilAllows wall (utcOf wall)

theorem withinEnd_cons (rule : Rule) (utcOf : NaiveDateTime → NaiveDateTime) (wall : NaiveDateTime)
    (rest : List NaiveDateTime) :
    withinEnd rule utcOf (wall :: rest) =
      if rule.untilAllows wall (utcOf wall) then wall :: withinEnd rule utcOf rest else [] :=
  List.takeWhile_cons

theorem mem_withinEnd {walls : List NaiveDateTime} (h : wall ∈ withinEnd rule utcOf walls) : wall ∈ walls :=
  (List.takeWhile_sublist _).subset h

/-- Visits in order find the occurrences that are in the window, neither cancelled nor moved. -/
theorem visitedStarts_eq {walls : List NaiveDateTime} (hlength : -2000000000 ≤ series.length)
    (hnear : ∀ wall, WithinDay wall (utcOf wall)) (hsorted : walls.Pairwise (· < ·))
    (hmono : ((withinEnd rule utcOf walls).map utcOf).Pairwise (· ≤ ·)) :
    visitedStarts series rule utcOf walls =
      ((withinEnd rule utcOf walls).map utcOf).filter fun utc => kept series (utc, series.length) := by
  induction walls with
  | nil => rfl
  | cons wall rest ih =>
    obtain ⟨hfirst, hrest⟩ := List.pairwise_cons.mp hsorted
    rw [visitedStarts]
    rw [withinEnd_cons] at hmono ⊢
    cases hallowed : rule.untilAllows wall (utcOf wall) with
    | false =>
      rw [if_neg Bool.false_ne_true, List.map_nil, List.filter_nil]
      split
      next hearly =>
        exact visitedStarts_eq_nil fun wall' hwall' hallowed' =>
          not_kept_of_ended hlength hnear hearly hallowed (hfirst wall' hwall') hallowed'
      next hearly => rfl
    | true =>
      rw [hallowed, if_pos rfl, List.map_cons] at hmono
      obtain ⟨hlater, hmonoRest⟩ := List.pairwise_cons.mp hmono
      rw [if_pos rfl, List.map_cons, List.filter_cons, ← ih hrest hmonoRest]
      split
      next hearly =>
        have hbefore := early_bound hlength hearly (hnear wall)
        have hnot : kept series (utcOf wall, series.length) = false :=
          kept_of_not_inWindow (not_inWindow_of_before (by dsimp only; omega))
        rw [hnot]
        rfl
      next hearly =>
        by_cases hpast : series.windowEnd ≤ utcOf wall
        · have hnot : ∀ utc, series.windowEnd ≤ utc → kept series (utc, series.length) = false := by
            intro utc hutc
            refine kept_of_not_inWindow ?_
            unfold Series.inWindow overlaps
            simp [not_lt.mpr hutc]
          rw [if_pos (by simpa using hpast), hnot _ hpast, ih hrest hmonoRest]
          symm
          refine List.filter_eq_nil_iff.mpr fun utc hutc => ?_
          rw [hnot utc (hpast.trans (hlater utc hutc))]
          exact Bool.false_ne_true
        · rw [if_neg (by simpa using hpast)]

theorem visitedStarts_append_early {earlier walls : List NaiveDateTime} (h : ∀ wall ∈ earlier, early series wall = true) :
    visitedStarts series rule utcOf (earlier ++ walls) = visitedStarts series rule utcOf walls := by
  induction earlier with
  | nil => rfl
  | cons wall earlier ih =>
    rw [List.cons_append, visitedStarts, if_pos (h wall List.mem_cons_self)]
    exact ih fun wall hwall => h wall (List.mem_cons_of_mem _ hwall)

theorem withinEnd_append (rule : Rule) (utcOf : NaiveDateTime → NaiveDateTime) (walls past : List NaiveDateTime) :
    ∃ tail, withinEnd rule utcOf (walls ++ past) = withinEnd rule utcOf walls ++ tail ∧ ∀ wall ∈ tail, wall ∈ past := by
  induction walls with
  | nil => exact ⟨withinEnd rule utcOf past, rfl, fun _ h => mem_withinEnd h⟩
  | cons wall walls ih =>
    obtain ⟨tail, htail, hmem⟩ := ih
    rw [List.cons_append, withinEnd_cons, withinEnd_cons]
    split
    · exact ⟨tail, by rw [htail]; rfl, hmem⟩
    · exact ⟨[], rfl, fun _ h => nomatch h⟩

/-- A local time past the end of the walk, and not the start, which is visited anyway. -/
def late (series : Series) (anchor wall : NaiveDateTime) : Bool := series.walkEnd < wall && anchor < wall

/-- The dates before which the walk of a rule may skip. -/
def walkAfter (series : Series) (rule : Rule) : Option NaiveDate := if rule.hasCount then none else series.walkStart

variable {anchor : NaiveDateTime}

/-- The walk finds the occurrences of the rule, but for those past its end. -/
theorem visitedStarts_walk (hlength : -2000000000 ≤ series.length) (hnear : ∀ wall, WithinDay wall (utcOf wall))
    (hmono : ((withinEnd rule utcOf (occurrences rule anchor)).map utcOf).Pairwise (· ≤ ·)) :
    visitedStarts series rule utcOf (visited rule anchor (walkAfter series rule) series.walkEnd) =
      (((withinEnd rule utcOf (occurrences rule anchor)).filter fun wall => !late series anchor wall).map utcOf).filter
        fun utc => kept series (utc, series.length) := by
  obtain ⟨skipped, past, hsplit, hskipped, hpast⟩ := occurrences_eq rule anchor (walkAfter series rule) series.walkEnd
  have hearly : ∀ wall ∈ skipped, early series wall = true := by
    intro wall hwall
    obtain ⟨date, hdate, hlt⟩ := hskipped wall hwall
    unfold walkAfter at hdate
    split at hdate
    · cases hdate
    · unfold early
      rw [hdate]
      exact decide_eq_true hlt
  have hsorted := pairwise_occurrences rule anchor
  rw [hsplit] at hmono hsorted ⊢
  obtain ⟨tail, htail, hmem⟩ := withinEnd_append rule utcOf
    (skipped ++ visited rule anchor (walkAfter series rule) series.walkEnd) past
  rw [htail] at hmono ⊢
  rw [← visitedStarts_append_early hearly,
    visitedStarts_eq hlength hnear (List.pairwise_append.mp hsorted).1
      (List.pairwise_append.mp (by rwa [List.map_append] at hmono)).1]
  have hlateTail : tail.filter (fun wall => !late series anchor wall) = [] := by
    refine List.filter_eq_nil_iff.mpr fun wall hwall => ?_
    obtain ⟨hend, hstart⟩ := hpast wall (hmem wall hwall)
    unfold late
    simp [hend, hstart]
  rw [List.filter_append, hlateTail, List.append_nil, List.filter_map, List.filter_map, List.filter_filter]
  congr 1
  refine List.filter_congr fun wall hwall => ?_
  rcases List.mem_append.mp (mem_withinEnd hwall) with hwall | hwall
  · have hbefore := early_bound hlength (hearly wall hwall) (hnear wall)
    have hnot : kept series (utcOf wall, series.length) = false :=
      kept_of_not_inWindow (not_inWindow_of_before (by dsimp only; omega))
    dsimp only [Function.comp]
    rw [hnot, Bool.false_and]
  · have hnotLate : late series anchor wall = false := by
      unfold late
      rcases mem_visited hwall with rfl | hle
      · simp
      · simp [not_lt.mpr hle]
    rw [hnotLate, Bool.not_false, Bool.and_true]

/-- A walk of a rule that nothing cut short. -/
theorem walkRule_spec (hwhole : Whole (series.walkRule rule anchor tzid w)) :
    Extends w (series.walkRule rule anchor tzid w) ∧
      (series.walkRule rule anchor tzid w).starts = w.starts ++
        (visitedStarts series rule (wallUtc w.zones.byId tzid)
          (visited rule anchor (walkAfter series rule) series.walkEnd)).map fun utc => (utc, series.length) := by
  unfold Series.walkRule at hwhole ⊢
  dsimp only at hwhole ⊢
  generalize hwalked : rule.walk (series.visit rule tzid) anchor (if rule.hasCount then none else series.walkStart)
    series.walkEnd w w.expansion.ruleStepsLeft = walked at hwhole ⊢
  obtain ⟨htruncated, hexhausted⟩ := hwhole
  obtain ⟨hstate, hdone⟩ := Bool.or_eq_false_iff.mp htruncated
  have hdone : walked.done = true := by simpa using hdone
  have hvisits := @walk_spec rule anchor series.walkEnd _ (series.visit rule tzid)
    (if rule.hasCount then none else series.walkStart) w w.expansion.ruleStepsLeft (by rw [hwalked]; exact hdone)
  rw [hwalked] at hvisits
  have hwhole : Whole (visitAll (series.visit rule tzid) w
      (visited rule anchor (walkAfter series rule) series.walkEnd)).1 := by
    unfold walkAfter
    rw [← hvisits]
    exact ⟨hstate, hexhausted⟩
  have hextends := extends_visitAll series rule tzid w (visited rule anchor (walkAfter series rule) series.walkEnd)
  unfold walkAfter at hextends hwhole
  rw [← hvisits] at hextends hwhole
  refine ⟨⟨hextends.byId, hextends.window, fun _ => hextends.whole hwhole⟩, ?_⟩
  rw [hvisits]
  exact visitAll_spec (by rw [← hvisits]; exact hwhole)

end IcsWalk
