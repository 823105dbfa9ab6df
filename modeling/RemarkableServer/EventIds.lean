import RemarkableServer.IcsBudgets
import RemarkableServer.IcsExpand
import RemarkableServer.OccurrenceKeys

/-!
# The ids of a series

The occurrences of a rule are on different days in the time of its zone, and each id names one
in UTC. A zone that is set forward by a whole day, as one that moves over the date line, gives
the days before and after one start in UTC. Then an id comes twice; else none does.
-/
namespace EventIds

open RustText Civil Chrono Recurrence RecurrenceWalk RecurrenceCost TimeZone ZoneLookup
open Ics IcsPlain IcsWalk IcsExpand IcsBudgets OccurrenceKeys

variable {table : ZoneTable} {tzid : Option Text} {a b wall : NaiveDateTime}

/-! ## Two local times at one instant -/

/-- The offset of a zone at a local time, at any cost. -/
def zoneOffset (table : ZoneTable) (tzid : Option Text) (wall : NaiveDateTime) : Option Offset :=
  (tzid.bind table).bind fun zone => zone.offsetAfter wall (plainLatest wall zone.observances none)

/-- From one day to the next, the zone is set forward by a day: in a leap second, by a second more. -/
def DayForward (table : ZoneTable) (tzid : Option Text) (a b : NaiveDateTime) : Prop :=
  b.date.day = a.date.day + 1 ∧ ∃ before after, zoneOffset table tzid a = some before ∧
    zoneOffset table tzid b = some after ∧ after.val = before.val + 86400 + a.leapSecond

theorem wallUtc_eq (table : ZoneTable) (tzid : Option Text) (wall : NaiveDateTime) :
    wallUtc table tzid wall =
      ((zoneOffset table tzid wall).bind fun offset => wall.checkedSubSigned (seconds offset.val)).getD wall := by
  unfold wallUtc zoneOffset
  cases tzid.bind table with
  | none => rfl
  | some zone => rfl

/-- A conversion goes back by an offset, or leaves the time as it is. -/
theorem clock_wallUtc (table : ZoneTable) (tzid : Option Text) (wall : NaiveDateTime) :
    ∃ n : Int, (-86400 < n ∧ n < 86400) ∧ (n = 0 ∨ ∃ offset, zoneOffset table tzid wall = some offset ∧ offset.val = n) ∧
      (wallUtc table tzid wall).clock = wall.clock - n + (if 0 < n then wall.leapSecond else 0) ∧
      (wallUtc table tzid wall).leapSecond = if n = 0 then wall.leapSecond else 0 := by
  rw [wallUtc_eq]
  cases hutc : (zoneOffset table tzid wall).bind fun offset => wall.checkedSubSigned (seconds offset.val) with
  | none =>
    refine ⟨0, by omega, Or.inl rfl, ?_, rfl⟩
    rw [if_neg (by omega), Option.getD_none]
    omega
  | some utc =>
    obtain ⟨offset, hoffset, hsub⟩ := Option.bind_eq_some_iff.mp hutc
    obtain ⟨hclock, hfrac⟩ := NaiveDateTime.checkedSubSigned_seconds hsub
    refine ⟨offset.val, offset.property, Or.inr ⟨offset, hoffset, rfl⟩, hclock, ?_⟩
    have hwall := wall.leapSecond_cases
    have hutc' := utc.leapSecond_cases
    have hbound := wall.time.frac.isLt
    rw [Option.getD_some]
    split at hfrac
    · omega
    · omega

/-- Two days have one start in UTC when the zone is set forward by a day between them. -/
theorem dayForward_of_sameKey (htime : a.time = b.time) (hlt : a.date.day < b.date.day)
    (hkey : occurrenceKey false (wallUtc table tzid a) = occurrenceKey false (wallUtc table tzid b)) :
    DayForward table tzid a b := by
  obtain ⟨m, hm, hzone, hclock, hleap⟩ := clock_wallUtc table tzid a
  obtain ⟨n, hn, hzone', hclock', hleap'⟩ := clock_wallUtc table tzid b
  obtain ⟨hsame, hsameLeap⟩ := occurrenceKey_time.mp hkey
  have hsecond : b.leapSecond = a.leapSecond := by
    unfold NaiveDateTime.leapSecond
    rw [htime]
  have hcases := a.leapSecond_cases
  have hday : b.clock = a.clock + 86400 * (b.date.day - a.date.day) := by
    unfold NaiveDateTime.clock
    rw [htime]
    omega
  rw [hclock, hclock', hsecond, hday] at hsame
  have hforward : b.date.day = a.date.day + 1 ∧ m < 0 ∧ 0 < n ∧ n = m + 86400 + a.leapSecond := by
    split_ifs at hsame <;> omega
  obtain ⟨hnext, hbefore, hafter, hoffsets⟩ := hforward
  obtain ⟨before, hbefore', rfl⟩ := hzone.resolve_left (by omega)
  obtain ⟨after, hafter', rfl⟩ := hzone'.resolve_left (by omega)
  exact ⟨hnext, before, after, hbefore', hafter', hoffsets⟩

theorem sameInstant_of_dayForward (htime : a.time = b.time) (h : DayForward table tzid a b) :
    wallUtc table tzid a = wallUtc table tzid b := by
  obtain ⟨hnext, before, after, hbefore, hafter, hoffsets⟩ := h
  have hrange := a.date.inRange
  have hrange' := b.date.inRange
  have hsecs := b.time.secs.isLt
  have hbound := before.property
  have hbound' := after.property
  have hcases := a.leapSecond_cases
  have hsecond : b.leapSecond = a.leapSecond := by
    unfold NaiveDateTime.leapSecond
    rw [htime]
  have hday : b.clock = a.clock + 86400 := by
    unfold NaiveDateTime.clock
    rw [htime, hnext]
    omega
  have hlow : minDay * 86400 ≤ a.clock := by
    unfold NaiveDateTime.clock
    omega
  have hhigh : b.clock < (maxDay + 1) * 86400 := by
    unfold NaiveDateTime.clock
    omega
  obtain ⟨utc, hutc⟩ := Option.isSome_iff_exists.mp
    (NaiveDateTime.isSome_checkedSubSigned_seconds (show minDay * 86400 ≤ a.clock - before.val by omega) (by omega))
  obtain ⟨utc', hutc'⟩ := Option.isSome_iff_exists.mp
    (NaiveDateTime.isSome_checkedSubSigned_seconds (show minDay * 86400 ≤ b.clock - after.val by omega) (by omega))
  rw [wallUtc_eq, wallUtc_eq, hbefore, hafter, Option.bind_some, Option.bind_some, hutc, hutc', Option.getD_some,
    Option.getD_some]
  obtain ⟨hclock, hfrac⟩ := NaiveDateTime.checkedSubSigned_seconds hutc
  obtain ⟨hclock', hfrac'⟩ := NaiveDateTime.checkedSubSigned_seconds hutc'
  rw [if_neg (by omega)] at hclock
  rw [if_pos (by omega)] at hclock'
  rw [if_neg (by omega)] at hfrac hfrac'
  refine NaiveDateTime.ext_clock (by omega) ?_
  rw [htime] at hfrac
  omega

/-! ## The keys of some occurrences -/

variable {series : Series} {rule : Rule} {anchor : NaiveDateTime}

/-- Days of an all-day series are not converted. -/
theorem sameKey_iff (hallDay : series.allDay = true → tzid = none) (htime : a.time = b.time) (hlt : a < b) :
    occurrenceKey series.allDay (wallUtc table tzid a) = occurrenceKey series.allDay (wallUtc table tzid b) ↔
      DayForward table tzid a b := by
  constructor
  · intro hkey
    have hday := (lt_iff_day htime).mp hlt
    cases hdays : series.allDay with
    | false =>
      rw [hdays] at hkey
      exact dayForward_of_sameKey htime hday hkey
    | true =>
      rw [hdays, hallDay hdays] at hkey
      have hdate : a.date = b.date := occurrenceKey_date.mp hkey
      rw [hdate] at hday
      exact absurd hday (lt_irrefl _)
  · intro h
    rw [sameInstant_of_dayForward htime h]

/-- The local times of the days of a rule, some or all of them. -/
structure Days (anchor : NaiveDateTime) (walls : List NaiveDateTime) : Prop where
  sorted : walls.Pairwise (· < ·)
  time : ∀ wall ∈ walls, wall.time = anchor.time

theorem Days.sublist {walls walls' : List NaiveDateTime} (h : Days anchor walls) (hsub : walls'.Sublist walls) :
    Days anchor walls' := ⟨h.sorted.sublist hsub, fun wall hwall => h.time wall (hsub.subset hwall)⟩

theorem days_occurrences (rule : Rule) (anchor : NaiveDateTime) : Days anchor (occurrences rule anchor) :=
  ⟨pairwise_occurrences rule anchor, fun _ hwall => (time_occurrences hwall).1⟩

theorem nodup_keys_iff {walls : List NaiveDateTime} (hallDay : series.allDay = true → tzid = none)
    (hdays : Days anchor walls) :
    (walls.map fun wall => occurrenceKey series.allDay (wallUtc table tzid wall)).Nodup ↔
      ∀ a ∈ walls, ∀ b ∈ walls, ¬DayForward table tzid a b := by
  have htime : ∀ a ∈ walls, ∀ b ∈ walls, a.time = b.time := fun a ha b hb =>
    (hdays.time a ha).trans (hdays.time b hb).symm
  have hnodup : walls.Nodup := hdays.sorted.imp fun h => h.ne
  constructor
  · intro hkeys a ha b hb hforward
    have hday := hforward.1
    have hlt : a < b := (lt_iff_day (htime a ha b hb)).mpr (by omega)
    have hsame := List.inj_on_of_nodup_map hkeys ha hb ((sameKey_iff hallDay (htime a ha b hb) hlt).mpr hforward)
    exact hlt.ne hsame
  · intro hnone
    refine hnodup.map_on fun a ha b hb hkey => ?_
    by_contra hne
    rcases lt_or_gt_of_ne hne with hlt | hlt
    · exact hnone a ha b hb ((sameKey_iff hallDay (htime a ha b hb) hlt).mp hkey)
    · exact hnone b hb a ha ((sameKey_iff hallDay (htime b hb a ha) hlt).mp hkey.symm)

/-! ## The walk of a rule -/

/-- Nothing ends the walk of the rule before it comes to a local time. -/
def Reached (series : Series) (rule : Rule) (utcOf : NaiveDateTime → NaiveDateTime) (anchor wall : NaiveDateTime) : Prop :=
  late series anchor wall = false ∧ ∀ wall' ∈ occurrences rule anchor, wall' ≤ wall → Passable series rule utcOf wall'

/-- The zone is set forward by a day between two days of the rule that the walk reaches and that are in the window,
neither cancelled nor moved. -/
def SkipsADay (table : ZoneTable) (series : Series) (rule : Rule) (anchor : NaiveDateTime) (tzid : Option Text) : Prop :=
  ∃ a ∈ occurrences rule anchor, ∃ b ∈ occurrences rule anchor, DayForward table tzid a b ∧
    kept series (wallUtc table tzid a, series.length) = true ∧ Reached series rule (wallUtc table tzid) anchor b

/-- The days of a rule that its walk keeps. -/
def ruleWalls (table : ZoneTable) (series : Series) (rule : Rule) (anchor : NaiveDateTime) (tzid : Option Text) :
    List NaiveDateTime :=
  keptWalls series rule (wallUtc table tzid) (visited rule anchor (walkAfter series rule) series.walkEnd)

theorem days_ruleWalls : Days anchor (ruleWalls table series rule anchor tzid) :=
  ((days_occurrences rule anchor).sublist (visited_sublist rule anchor _ _)).sublist (keptWalls_sublist _)

theorem not_early_of_kept (hlength : -2000000000 ≤ series.length)
    (hkept : kept series (wallUtc table tzid wall, series.length) = true) : early series wall = false := by
  by_contra hearly
  rw [Bool.not_eq_false] at hearly
  have hbefore := early_bound hlength hearly (wallUtc_within table tzid wall)
  rw [kept_of_not_inWindow (not_inWindow_of_before (by dsimp only; omega))] at hkept
  cases hkept

/-- A day of the rule is visited, passed over days before the window, or past the end of the walk. -/
theorem mem_occurrences_cases (series : Series) (h : wall ∈ occurrences rule anchor) :
    early series wall = true ∨ wall ∈ visited rule anchor (walkAfter series rule) series.walkEnd ∨
      late series anchor wall = true := by
  obtain ⟨skipped, past, hsplit, hskipped, hpast⟩ := occurrences_eq rule anchor (walkAfter series rule) series.walkEnd
  rw [hsplit] at h
  rcases List.mem_append.mp h with h | h
  · rcases List.mem_append.mp h with h | h
    · obtain ⟨date, hdate, hlt⟩ := hskipped wall h
      unfold walkAfter at hdate
      split at hdate
      · cases hdate
      · left
        unfold early
        rw [hdate]
        exact decide_eq_true hlt
    · exact Or.inr (Or.inl h)
  · obtain ⟨hend, hstart⟩ := hpast wall h
    right
    right
    unfold late
    simp [hend, hstart]

theorem late_of_le (hle : a ≤ b) (h : late series anchor a = true) : late series anchor b = true := by
  unfold late at h ⊢
  simp only [Bool.and_eq_true, decide_eq_true_eq] at h ⊢
  exact ⟨h.1.trans_le hle, h.2.trans_le hle⟩

theorem not_late_of_visited (h : wall ∈ visited rule anchor (walkAfter series rule) series.walkEnd) :
    late series anchor wall = false := by
  unfold late
  rcases mem_visited h with rfl | hle
  · simp
  · simp [not_lt.mpr hle]

/-- What the walk keeps are the days that it reaches and that are in the window. -/
theorem mem_ruleWalls (hlength : -2000000000 ≤ series.length) :
    wall ∈ ruleWalls table series rule anchor tzid ↔
      wall ∈ occurrences rule anchor ∧ kept series (wallUtc table tzid wall, series.length) = true ∧
        Reached series rule (wallUtc table tzid) anchor wall := by
  have hsub := visited_sublist rule anchor (walkAfter series rule) series.walkEnd
  unfold ruleWalls
  rw [mem_keptWalls ((days_occurrences rule anchor).sublist hsub).sorted]
  constructor
  · rintro ⟨hvisited, -, hkept, hall⟩
    have hnotLate := not_late_of_visited hvisited
    refine ⟨hsub.subset hvisited, hkept, hnotLate, fun wall' hwall' hle => ?_⟩
    rcases mem_occurrences_cases series hwall' with hearly | hvisited' | hlate
    · exact Or.inl hearly
    · exact hall wall' hvisited' hle
    · rw [late_of_le hle hlate] at hnotLate
      cases hnotLate
  · rintro ⟨hwall, hkept, hnotLate, hall⟩
    have hnotEarly := not_early_of_kept hlength hkept
    refine ⟨?_, hnotEarly, hkept, fun wall' hwall' => hall wall' (hsub.subset hwall')⟩
    rcases mem_occurrences_cases series hwall with hearly | hvisited | hlate
    · rw [hnotEarly] at hearly
      cases hearly
    · exact hvisited
    · rw [hnotLate] at hlate
      cases hlate

theorem skipsADay_iff (hlength : -2000000000 ≤ series.length) :
    SkipsADay table series rule anchor tzid ↔
      ∃ a ∈ ruleWalls table series rule anchor tzid, ∃ b ∈ ruleWalls table series rule anchor tzid,
        DayForward table tzid a b := by
  have htime : ∀ a ∈ occurrences rule anchor, ∀ b ∈ occurrences rule anchor, a.time = b.time := fun a ha b hb =>
    ((days_occurrences rule anchor).time a ha).trans ((days_occurrences rule anchor).time b hb).symm
  constructor
  · rintro ⟨a, ha, b, hb, hforward, hkept, hreached⟩
    have hday := hforward.1
    have hle : a ≤ b := ((lt_iff_day (htime a ha b hb)).mpr (by omega)).le
    have hreached' : Reached series rule (wallUtc table tzid) anchor a := by
      refine ⟨?_, fun wall hwall hwall' => hreached.2 wall hwall (hwall'.trans hle)⟩
      by_contra hlate
      have hlate' := late_of_le hle (Bool.not_eq_false _ ▸ hlate)
      rw [hreached.1] at hlate'
      cases hlate'
    have hkept' : kept series (wallUtc table tzid b, series.length) = true := by
      rw [← sameInstant_of_dayForward (htime a ha b hb) hforward]
      exact hkept
    exact ⟨a, (mem_ruleWalls hlength).mpr ⟨ha, hkept, hreached'⟩, b, (mem_ruleWalls hlength).mpr ⟨hb, hkept', hreached⟩,
      hforward⟩
  · rintro ⟨a, ha, b, hb, hforward⟩
    obtain ⟨ha, hkept, -⟩ := (mem_ruleWalls hlength).mp ha
    obtain ⟨hb, -, hreached⟩ := (mem_ruleWalls hlength).mp hb
    exact ⟨a, ha, b, hb, hforward, hkept, hreached⟩

/-! ## The keys of a series -/

variable {w : Walking} {e : VEventFields} {startTime : IcsTime} {start : NaiveDateTime} {rrule : Option Rule}

def keys (series : Series) (w : Walking) : List Text := w.starts.map (keyOf series)

/-- A listed occurrence is added if its key is new. -/
theorem nodup_addRDates (rdates : List RDate) {seen : List Text} (hseen : ∀ key ∈ keys series w, key ∈ seen)
    (h : (keys series w).Nodup) : (keys series (series.addRDates rdates w seen)).Nodup := by
  induction rdates generalizing w seen with
  | nil => exact h
  | cons rdate rest ih =>
    unfold Series.addRDates
    split
    · exact ih hseen h
    · split
      · exact ih hseen h
      next zones start length hfound =>
        dsimp only
        split
        · exact ih hseen h
        next hnew =>
          have hfresh : occurrenceKey series.allDay start ∉ seen := by
            intro hmem
            exact hnew (by rw [List.contains_iff_mem.mpr hmem, Bool.or_true])
          have hstarts := @push_starts series { w with zones := zones } start length
          split
          next hpaid =>
            rw [if_pos hpaid] at hstarts
            have hkeys : keys series (series.push { w with zones := zones } start length).1 =
                keys series w ++ [occurrenceKey series.allDay start] := by
              unfold keys
              rw [hstarts, List.map_append]
              rfl
            refine ih ?_ ?_
            · rw [hkeys]
              intro key hkey
              rcases List.mem_append.mp hkey with hkey | hkey
              · exact List.mem_cons_of_mem _ (hseen key hkey)
              · rw [List.mem_singleton.mp hkey]
                exact List.mem_cons_self
            · rw [hkeys, ← List.concat_eq_append]
              exact h.concat fun hmem => hfresh (hseen _ hmem)
          next hpaid =>
            rw [if_neg hpaid, List.append_nil] at hstarts
            unfold keys
            rw [hstarts]
            exact h

theorem addRDates_starts (rdates : List RDate) (w : Walking) (seen : List Text) :
    ∃ listed, (series.addRDates rdates w seen).starts = w.starts ++ listed := by
  induction rdates generalizing w seen with
  | nil => exact ⟨[], (List.append_nil _).symm⟩
  | cons rdate rest ih =>
    unfold Series.addRDates
    split
    · exact ih w seen
    · split
      · exact ih _ seen
      next zones start length hfound =>
        dsimp only
        split
        · exact ih _ seen
        · have hstarts := @push_starts series { w with zones := zones } start length
          split
          · obtain ⟨listed, hlisted⟩ := ih (series.push { w with zones := zones } start length).1
              (occurrenceKey series.allDay start :: seen)
            rw [hlisted, hstarts, List.append_assoc]
            exact ⟨_, rfl⟩
          · exact ⟨_, hstarts⟩

theorem walkRule_starts (series : Series) (rule : Rule) (anchor : NaiveDateTime) (tzid : Option Text) (w : Walking) :
    ∃ walls : List NaiveDateTime, walls.Sublist (ruleWalls w.zones.byId series rule anchor tzid) ∧
      (series.walkRule rule anchor tzid w).starts =
        w.starts ++ walls.map fun wall => (wallUtc w.zones.byId tzid wall, series.length) := by
  obtain ⟨n, hn⟩ := @walk_first Walking (series.visit rule tzid) rule anchor series.walkEnd (walkAfter series rule) w
    w.expansion.ruleStepsLeft
  obtain ⟨walls, hwalls, hstarts⟩ := @visitAll_starts series rule tzid w
    ((visited rule anchor (walkAfter series rule) series.walkEnd).take n)
  refine ⟨walls, hwalls.trans (keptWalls_take _ n), ?_⟩
  rw [← hn] at hstarts
  exact hstarts

theorem walkRule_starts_whole (hwhole : Whole (series.walkRule rule anchor tzid w)) :
    (series.walkRule rule anchor tzid w).starts = w.starts ++
      (ruleWalls w.zones.byId series rule anchor tzid).map fun wall => (wallUtc w.zones.byId tzid wall, series.length) := by
  rw [(walkRule_spec hwhole).2, visitedStarts_eq_map, List.map_map]
  rfl

theorem keys_map (walls : List NaiveDateTime) (length : Int) :
    (walls.map fun wall => (wallUtc table tzid wall, length)).map (keyOf series) =
      walls.map fun wall => occurrenceKey series.allDay (wallUtc table tzid wall) := by
  rw [List.map_map]
  rfl

/-- The zone is set forward by a day between two days of a series. -/
def SeriesSkips (table : ZoneTable) (series : Series) (rrule : Option Rule) (startTime : IcsTime) : Prop :=
  ∃ rule, rrule = some rule ∧
    SkipsADay table series rule (VEventFields.anchorOf startTime).1 (VEventFields.anchorOf startTime).2

theorem nodup_expandSeries (hlength : -2000000000 ≤ series.length)
    (hallDay : series.allDay = true → (VEventFields.anchorOf startTime).2 = none) (hstarts : w.starts = [])
    (hskips : ¬SeriesSkips w.zones.byId series rrule startTime) :
    (keys series (e.expandSeries series rrule startTime start w)).Nodup := by
  unfold VEventFields.expandSeries
  refine nodup_addRDates e.rdates (fun _ h => h) ?_
  cases rrule with
  | none =>
    dsimp only
    split
    · unfold keys
      rw [push_starts, hstarts]
      split
      · exact List.nodup_singleton _
      · exact List.nodup_nil
    · unfold keys
      rw [hstarts]
      exact List.nodup_nil
  | some rule =>
    obtain ⟨walls, hwalls, hfound⟩ := walkRule_starts series rule (VEventFields.anchorOf startTime).1
      (VEventFields.anchorOf startTime).2 w
    unfold keys
    dsimp only
    rw [hfound, hstarts, List.nil_append, keys_map, nodup_keys_iff hallDay (days_ruleWalls.sublist hwalls)]
    intro a ha b hb hforward
    exact hskips ⟨rule, rfl, (skipsADay_iff hlength).mpr ⟨a, hwalls.subset ha, b, hwalls.subset hb, hforward⟩⟩

/-- Unless the walk is cut short, two days at one start in UTC give one key twice. -/
theorem not_nodup_expandSeries (hlength : -2000000000 ≤ series.length)
    (hallDay : series.allDay = true → (VEventFields.anchorOf startTime).2 = none) (hstarts : w.starts = [])
    (hskips : SkipsADay w.zones.byId series rule (VEventFields.anchorOf startTime).1 (VEventFields.anchorOf startTime).2)
    (hwhole : Whole (series.walkRule rule (VEventFields.anchorOf startTime).1 (VEventFields.anchorOf startTime).2 w)) :
    ¬(keys series (e.expandSeries series (some rule) startTime start w)).Nodup := by
  intro hnodup
  unfold VEventFields.expandSeries keys at hnodup
  dsimp only at hnodup
  obtain ⟨listed, hlisted⟩ := @addRDates_starts series e.rdates
    (series.walkRule rule (VEventFields.anchorOf startTime).1 (VEventFields.anchorOf startTime).2 w)
    ((series.walkRule rule (VEventFields.anchorOf startTime).1 (VEventFields.anchorOf startTime).2 w).starts.map
      fun found => occurrenceKey series.allDay found.1)
  rw [hlisted, walkRule_starts_whole hwhole, hstarts, List.nil_append, List.map_append] at hnodup
  have hrule := hnodup.of_append_left
  rw [keys_map, nodup_keys_iff hallDay days_ruleWalls] at hrule
  obtain ⟨a, ha, b, hb, hforward⟩ := (skipsADay_iff hlength).mp hskips
  exact hrule a ha b hb hforward

/-! ## The ids of an expansion -/

variable {calendarId : Text} {etag : Option Text} {overridden : List Text} {zones : Zones} {expansion : Expansion}

def ids (expanded : Zones × Expansion × List CalendarEvent) : List Text := expanded.2.2.map (·.id)

/-- The series of an event whose times can be converted, and its start. -/
structure IsSeries (table : ZoneTable) (e : VEventFields) (calendarId : Text) (etag : Option Text) (overridden : List Text)
    (expansion : Expansion) (startTime : IcsTime) (start : NaiveDateTime) (series : Series) : Prop where
  startTime : e.start = some startTime
  read : ∃ uid times excluded, e.uid = some uid ∧ plainTimes table e = some times ∧ plainAll table e.exdates = some excluded ∧
    times.1 = start ∧ series = e.seriesOf uid calendarId etag overridden expansion times excluded

/-- The zone is set forward by a day between two days of the series that are in the window. -/
def Skips (table : ZoneTable) (e : VEventFields) (rrule : Option Rule) (calendarId : Text) (etag : Option Text)
    (overridden : List Text) (expansion : Expansion) : Prop :=
  ∃ startTime start series, IsSeries table e calendarId etag overridden expansion startTime start series ∧
    SeriesSkips table series rrule startTime

theorem IsSeries.length {series : Series} (h : IsSeries table e calendarId etag overridden expansion startTime start series) :
    -2000000000 ≤ series.length := by
  obtain ⟨uid, times, excluded, -, htimes, -, -, rfl⟩ := h.read
  exact plainTimes_length htimes

theorem IsSeries.allDay {series : Series} (h : IsSeries table e calendarId etag overridden expansion startTime start series)
    (hallDay : series.allDay = true) : (VEventFields.anchorOf startTime).2 = none := by
  obtain ⟨uid, times, excluded, -, htimes, -, -, rfl⟩ := h.read
  have hdate : startTime.isDate = true := by
    unfold plainTimes at htimes
    rw [h.startTime, Option.bind_some] at htimes
    obtain ⟨start, -, htimes⟩ := Option.bind_eq_some_iff.mp htimes
    split at htimes
    · cases htimes
      exact hallDay
    · obtain ⟨stop, -, htimes⟩ := Option.bind_eq_some_iff.mp htimes
      cases htimes
      exact hallDay
  cases startTime with
  | date d => rfl
  | utc time => cases hdate
  | wall time tzid => cases hdate

theorem IsSeries.tooLong {series : Series} (h : IsSeries table e calendarId etag overridden expansion startTime start series) :
    tooLong (VEventFields.anchorOf startTime).2 = false := by
  obtain ⟨uid, times, excluded, -, htimes, -, -, -⟩ := h.read
  unfold plainTimes at htimes
  rw [h.startTime, Option.bind_some] at htimes
  obtain ⟨start, hstart, -⟩ := Option.bind_eq_some_iff.mp htimes
  cases startTime with
  | date d => rfl
  | utc time => rfl
  | wall time tzid =>
    unfold plainUtc at hstart
    dsimp only at hstart
    split at hstart
    · cases hstart
    next hshort => exact Bool.eq_false_iff.mpr hshort

/-- Ids are as different as the keys in them. -/
theorem ids_nodup_iff (uid : Text) (series : Series) (w : Walking) :
    ((w.starts.map (e.eventOf uid calendarId etag series.allDay)).map (·.id)).Nodup ↔ (keys series w).Nodup := by
  have hids : (w.starts.map (e.eventOf uid calendarId etag series.allDay)).map (·.id) =
      (keys series w).map fun key => calendarId ++ [':'] ++ uid ++ [':'] ++ key := by
    unfold keys
    rw [List.map_map, List.map_map]
    rfl
  rw [hids]
  exact List.nodup_map_iff (List.append_right_injective _)

/-- Either nothing is expanded, or the occurrences of the series are. -/
theorem expand_cases (e : VEventFields) (rrule : Option Rule) (calendarId : Text) (etag : Option Text)
    (overridden : List Text) (zones : Zones) (expansion : Expansion) :
    (e.expand rrule calendarId etag overridden zones expansion).2.2 = [] ∨
      ∃ uid startTime start series zones', IsSeries zones.byId e calendarId etag overridden expansion startTime start series ∧
        zones'.byId = zones.byId ∧
        let w := e.expandSeries series rrule startTime start ⟨zones', expansion, []⟩
        e.expand rrule calendarId etag overridden zones expansion =
          (w.zones, w.expansion, w.starts.map (e.eventOf uid calendarId etag series.allDay)) := by
  have htimes := priced_times zones.byId e
  have hexcluded := priced_excluded zones.byId e
  have htimesById := htimes.byId zones rfl
  have htimesSound := htimes.sound zones
  unfold VEventFields.expand
  cases hfound : e.times zones with
  | mk zones' found =>
    rw [hfound] at htimesById htimesSound
    cases found with
    | none => exact Or.inl rfl
    | some times =>
      dsimp only at htimesById htimesSound ⊢
      split
      next uid startTime huid hstartTime =>
        have hbyId := hexcluded.byId zones' htimesById
        have hsound := hexcluded.sound zones'
        cases hfound' : e.excluded zones' with
        | mk zones'' found' =>
          rw [hfound'] at hbyId hsound
          cases found' with
          | none => exact Or.inl rfl
          | some excluded =>
            have hseries : IsSeries zones.byId e calendarId etag overridden expansion startTime times.1
                (e.seriesOf uid calendarId etag overridden expansion times excluded) :=
              ⟨hstartTime, uid, times, excluded, huid, htimesSound times rfl rfl, hsound excluded htimesById rfl, rfl, rfl⟩
            exact Or.inr ⟨uid, startTime, times.1, _, zones'', hseries, hbyId, rfl⟩
      · exact Or.inl rfl

theorem ids_nodup (hskips : ¬Skips zones.byId e rrule calendarId etag overridden expansion) :
    (ids (e.expand rrule calendarId etag overridden zones expansion)).Nodup := by
  obtain hnone | ⟨uid, startTime, start, series, zones', hseries, hbyId, hexpand⟩ :=
    expand_cases e rrule calendarId etag overridden zones expansion
  · unfold ids
    rw [hnone]
    exact List.nodup_nil
  · unfold ids
    dsimp only at hexpand
    rw [hexpand, ids_nodup_iff]
    refine nodup_expandSeries hseries.length hseries.allDay rfl ?_
    dsimp only
    rw [hbyId]
    exact fun h => hskips ⟨startTime, start, series, hseries, h⟩

/-- A series whose times were converted is expanded. -/
theorem expand_of_found (rrule : Option Rule) {startTime : IcsTime} {series : Series} {zones' zones'' : Zones}
    {times : NaiveDateTime × NaiveDateTime × Bool} {excluded : List NaiveDateTime}
    (h : IsSeries zones.byId e calendarId etag overridden expansion startTime start series)
    (htimes : e.times zones = (zones', some times)) (hexcluded : e.excluded zones' = (zones'', some excluded)) :
    ∃ uid, zones''.byId = zones.byId ∧
      let w := e.expandSeries series rrule startTime start ⟨zones'', expansion, []⟩
      e.expand rrule calendarId etag overridden zones expansion =
        (w.zones, w.expansion, w.starts.map (e.eventOf uid calendarId etag series.allDay)) := by
  obtain ⟨uid, times', excluded', huid, htimes', hexcluded', rfl, rfl⟩ := h.read
  have hbyId := (priced_times zones.byId e).byId zones rfl
  have hsound := (priced_times zones.byId e).sound zones times rfl
  rw [htimes] at hbyId hsound
  have hbyId' := (priced_excluded zones.byId e).byId zones' hbyId
  have hsound' := (priced_excluded zones.byId e).sound zones' excluded hbyId
  rw [hexcluded] at hbyId' hsound'
  rw [Option.some.inj (htimes'.symm.trans (hsound rfl)), Option.some.inj (hexcluded'.symm.trans (hsound' rfl))]
  refine ⟨uid, hbyId', ?_⟩
  unfold VEventFields.expand
  rw [htimes, huid, h.startTime]
  dsimp only
  rw [hexcluded]

theorem not_ids_nodup_of_walk {rule : Rule} {startTime : IcsTime} {series : Series} {zones' zones'' : Zones}
    {times : NaiveDateTime × NaiveDateTime × Bool} {excluded : List NaiveDateTime}
    (h : IsSeries zones.byId e calendarId etag overridden expansion startTime start series)
    (htimes : e.times zones = (zones', some times)) (hexcluded : e.excluded zones' = (zones'', some excluded))
    (hskips : SkipsADay zones.byId series rule (VEventFields.anchorOf startTime).1 (VEventFields.anchorOf startTime).2)
    (hwhole : Whole (series.walkRule rule (VEventFields.anchorOf startTime).1 (VEventFields.anchorOf startTime).2
      ⟨zones'', expansion, []⟩)) :
    ¬(ids (e.expand (some rule) calendarId etag overridden zones expansion)).Nodup := by
  obtain ⟨uid, hbyId, hexpand⟩ := expand_of_found (some rule) h htimes hexcluded
  unfold ids
  dsimp only at hexpand
  rw [hexpand, ids_nodup_iff]
  refine not_nodup_expandSeries h.length h.allDay rfl ?_ hwhole
  dsimp only
  rw [hbyId]
  exact hskips

/-- Nothing cut the expansion short. -/
def Complete (expanded : Zones × Expansion × List CalendarEvent) : Prop :=
  expanded.2.1.truncated = false ∧ expanded.1.exhausted = false

theorem not_ids_nodup_of_complete (hskips : Skips zones.byId e rrule calendarId etag overridden expansion)
    (hcomplete : Complete (e.expand rrule calendarId etag overridden zones expansion)) :
    ¬(ids (e.expand rrule calendarId etag overridden zones expansion)).Nodup := by
  obtain ⟨startTime, start, series, h, rule, rfl, hskips⟩ := hskips
  obtain ⟨uid, times, excluded, huid, hplain, hplain', -⟩ := h.read
  have htimesResult := (converts_times e zones).result
  have hbyId := (priced_times zones.byId e).byId zones rfl
  cases hfound : e.times zones with
  | mk zones' found =>
    rw [hfound] at htimesResult hbyId
    cases found with
    | none =>
      unfold VEventFields.expand at hcomplete
      rw [hfound] at hcomplete
      have hnone := (htimesResult hcomplete.2).2
      rw [hplain] at hnone
      cases hnone
    | some times =>
      have hexcludedResult := (converts_convertAll zones' e.exdates).result
      cases hfound' : e.excluded zones' with
      | mk zones'' found' =>
        unfold VEventFields.excluded at hfound'
        rw [hfound'] at hexcludedResult
        cases found' with
        | none =>
          unfold VEventFields.expand VEventFields.excluded at hcomplete
          rw [hfound, huid, h.startTime] at hcomplete
          dsimp only at hcomplete
          rw [hfound'] at hcomplete
          have hnone := (hexcludedResult hcomplete.2).2
          dsimp only at hnone hbyId
          rw [hbyId, hplain'] at hnone
          cases hnone
        | some excluded =>
          refine not_ids_nodup_of_walk h hfound hfound' hskips ?_
          obtain ⟨uid, -, hexpand⟩ := expand_of_found (some rule) h hfound hfound'
          dsimp only at hexpand
          rw [hexpand] at hcomplete
          exact (extends_addRDates series e.rdates _ _).whole hcomplete

/-- Some budgets are enough for everything. -/
theorem exists_not_ids_nodup (hskips : Skips table e rrule calendarId etag overridden expansion) :
    ∃ zones' expansion', zones'.byId = table ∧ SameWindow expansion expansion' ∧
      ¬(ids (e.expand rrule calendarId etag overridden zones' expansion')).Nodup := by
  obtain ⟨startTime, start, series, h, rule, rfl, hskips⟩ := hskips
  obtain ⟨uid, times, excluded, huid, hplain, hplain', hread⟩ := h.read
  obtain ⟨ruleCost, walkCost, count, hwalk⟩ := walkRule_enough table series rule (VEventFields.anchorOf startTime).1 h.tooLong
  obtain ⟨timesCost, htimes⟩ := (priced_times table e).enough times hplain
  obtain ⟨excludedCost, hexcluded⟩ := (priced_excluded table e).enough excluded hplain'
  let zones : Zones := ⟨table, [], timesCost + (excludedCost + walkCost), false⟩
  let expansion' : Expansion := { expansion with
    ruleStepsLeft := ruleCost
    instancesLeft := count
    bytesLeft := count * series.bytes
    truncated := false }
  refine ⟨zones, expansion', rfl, ⟨rfl, rfl⟩, ?_⟩
  have h' : IsSeries zones.byId e calendarId etag overridden expansion' startTime start series :=
    ⟨h.startTime, uid, times, excluded, huid, hplain, hplain', hread⟩
  obtain ⟨htimes, hsolvent⟩ := htimes (excludedCost + walkCost) zones ⟨rfl, rfl, le_rfl⟩
  obtain ⟨hexcluded, hsolvent'⟩ := hexcluded walkCost _ hsolvent
  refine not_ids_nodup_of_walk h' (Prod.ext rfl htimes) (Prod.ext rfl hexcluded) hskips ?_
  exact hwalk _ ⟨hsolvent', rfl, le_rfl, le_rfl⟩ le_rfl

/-- No id comes twice, whatever the budgets, exactly when the zone is not set forward by a day between two days of the
series in the window; and then an expansion that nothing cut short has an id twice. -/
theorem ids_distinct_iff (e : VEventFields) (rrule : Option Rule) (calendarId : Text) (etag : Option Text)
    (overridden : List Text) (zones : Zones) (expansion : Expansion) :
    ((∀ zones' expansion', zones'.byId = zones.byId → SameWindow expansion expansion' →
        (ids (e.expand rrule calendarId etag overridden zones' expansion')).Nodup) ↔
      ¬Skips zones.byId e rrule calendarId etag overridden expansion) ∧
    (Complete (e.expand rrule calendarId etag overridden zones expansion) →
      ((ids (e.expand rrule calendarId etag overridden zones expansion)).Nodup ↔
        ¬Skips zones.byId e rrule calendarId etag overridden expansion)) := by
  refine ⟨⟨fun hall hskips => ?_, fun hskips zones' expansion' hbyId hwindow => ?_⟩,
    fun hcomplete => ⟨fun hnodup hskips => ?_, ids_nodup⟩⟩
  · obtain ⟨zones', expansion', hbyId, hwindow, hnot⟩ := exists_not_ids_nodup hskips
    exact hnot (hall zones' expansion' hbyId hwindow)
  · refine ids_nodup fun h => hskips ?_
    obtain ⟨startTime, start, series, hseries, hskips⟩ := h
    rw [hbyId] at hseries hskips
    obtain ⟨uid, times, excluded, huid, hplain, hplain', hstart, hread⟩ := hseries.read
    refine ⟨startTime, start, series, ⟨hseries.startTime, uid, times, excluded, huid, hplain, hplain', hstart, ?_⟩, hskips⟩
    rw [hread]
    unfold VEventFields.seriesOf
    rw [hwindow.1, hwindow.2]
  · exact not_ids_nodup_of_complete hskips hcomplete hnodup

/-! ## The date line -/

/-- Samoa left out the 30th of December of the year 2011: from ten hours west of UTC to fourteen hours east. -/
def apia : Zone :=
  Zone.empty.add
    { start := some ⟨⟨yearStart 2012 - 2, by decide⟩, NaiveTime.midnight⟩
      offsetFrom := some ⟨-36000, by decide⟩
      offsetTo := some ⟨50400, by decide⟩
      rule := none
      rdates := [] }

def apiaZones : Zones := ⟨fun tzid => if tzid = "Pacific/Apia".toList then some apia else none, [], maxZoneSteps, false⟩

def threeDays : Rule := { Rule.initial with count := some 3 }

def threeDaysRrule : Text := "FREQ=DAILY;COUNT=3".toList

/-- At nine in the morning, from the 29th on. -/
def standUp : VEventFields where
  uid := some "stand-up".toList
  summary := none
  description := none
  location := none
  start := some (.wall ⟨⟨yearStart 2012 - 3, by decide⟩, ⟨⟨32400, by decide⟩, 0, whole_second⟩⟩
    (some "Pacific/Apia".toList))
  stop := none
  duration := none
  recurrenceId := none
  recurrenceIdRaw := none
  status := .confirmed
  rrule := some threeDaysRrule
  rdates := []
  exdates := []

/-- The last week of the year. -/
def lastWeek : Expansion :=
  Expansion.new ⟨⟨yearStart 2012 - 7, by decide⟩, NaiveTime.midnight⟩ ⟨⟨yearStart 2012, by decide⟩, NaiveTime.midnight⟩

example :
    (Rule.parse ⟨fun _ => none, fun _ => none⟩ threeDaysRrule).map (fun rule => (rule.freq, rule.interval, rule.count)) =
      some (.daily, 1, some 3) := by
  decide +kernel

example : (parseOffset "-1000".toList, parseOffset "+1400".toList) = (some ⟨-36000, by decide⟩, some ⟨50400, by decide⟩) := by
  decide +kernel

theorem lastWeek_complete : Complete (standUp.expand (some threeDays) "cal".toList none [] apiaZones lastWeek) :=
  ⟨by decide +kernel, by decide +kernel⟩

/-- The day that was left out is read with the offset before it, and so starts when the next one does. -/
theorem left_out_day_comes_twice :
    ids (standUp.expand (some threeDays) "cal".toList none [] apiaZones lastWeek) =
        ["cal:stand-up:20111229T190000Z".toList, "cal:stand-up:20111230T190000Z".toList,
          "cal:stand-up:20111230T190000Z".toList] ∧
      ¬(ids (standUp.expand (some threeDays) "cal".toList none [] apiaZones lastWeek)).Nodup :=
  ⟨by decide +kernel, by decide +kernel⟩

theorem apia_skips : Skips apiaZones.byId standUp (some threeDays) "cal".toList none [] lastWeek := by
  by_contra hskips
  have hdistinct := ((ids_distinct_iff standUp (some threeDays) "cal".toList none [] apiaZones lastWeek).2
    lastWeek_complete).mpr hskips
  exact absurd hdistinct (by decide +kernel)

end EventIds
