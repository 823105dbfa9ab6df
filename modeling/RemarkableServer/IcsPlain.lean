import RemarkableServer.Ics
import RemarkableServer.ZoneLookup

/-!
# Series without budgets

The plain meaning of a series: the whole rule is walked, every occurrence is converted, and
what is cancelled, moved or outside the window is dropped. And what a conversion that was not
cut short has to do with it.
-/
namespace IcsPlain

open RustText Chrono Recurrence RecurrenceWalk TimeZone ZoneLookup Ics

/-! ## Plain conversions -/

/-- The zones of a calendar object, by their names. -/
abbrev ZoneTable := Text → Option Zone

variable {table : ZoneTable}

/-- A local time of a zone in UTC; floating times, and those of an unknown zone, are read as UTC. -/
def wallUtc (table : ZoneTable) (tzid : Option Text) (wall : NaiveDateTime) : NaiveDateTime :=
  ((tzid.bind table).bind fun zone => plainToUtc zone wall).getD wall

/-- Whether the name of a zone is too long to look up. -/
def tooLong (tzid : Option Text) : Bool := tzid.any fun tzid => maxTzidBytes < byteLen tzid

def plainUtc (table : ZoneTable) : IcsTime → Option NaiveDateTime
  | .date d => some ⟨d, NaiveTime.midnight⟩
  | .utc time => some time
  | .wall time tzid => if tooLong tzid then none else some (wallUtc table tzid time)

def plainTimes (table : ZoneTable) (e : VEventFields) : Option (NaiveDateTime × NaiveDateTime × Bool) :=
  e.start.bind fun startTime =>
    (plainUtc table startTime).bind fun start =>
      match e.stop with
      | none => some (start, e.stopOf start none startTime.isDate, startTime.isDate)
      | some stop =>
        (plainUtc table stop).bind fun stop =>
          some (start, e.stopOf start (some stop) startTime.isDate, startTime.isDate)

def plainAll (table : ZoneTable) : List IcsTime → Option (List NaiveDateTime)
  | [] => some []
  | time :: rest => (plainUtc table time).bind fun utc => (plainAll table rest).bind fun utcs => some (utc :: utcs)

/-- When a listed occurrence starts and how long it lasts: as its PERIOD says, unless that is negative. -/
def plainOccurrence (table : ZoneTable) (series : Int) (rdate : RDate) : Option (NaiveDateTime × Int) :=
  (plainUtc table rdate.start).bind fun start =>
    match rdate.period with
    | some (.lasts length) => some (start, RDate.lengthOr series (some length))
    | some (.ends time) =>
      (plainUtc table time).bind fun stop => some (start, RDate.lengthOr series (some (stop.since start)))
    | none => some (start, RDate.lengthOr series none)

/-! ## Conversions that were not cut short -/

/-- A conversion leaves the zones, and has the plain result unless it was cut short. -/
structure Converts {α : Type} (zones : Zones) (converted : Converted α) (plain : Option α) : Prop where
  byId : converted.1.byId = zones.byId
  result : converted.1.exhausted = false → zones.exhausted = false ∧ converted.2 = plain

theorem Converts.done {α : Type} (zones : Zones) (result : Option α) : Converts zones (zones, result) result :=
  ⟨rfl, fun h => ⟨h, rfl⟩⟩

theorem Converts.andThen {α β : Type} {zones : Zones} {converted : Converted α} {plain : Option α}
    {f : Zones → α → Converted β} {g : α → Option β} (h : Converts zones converted plain)
    (hf : ∀ zones' a, zones'.byId = zones.byId → Converts zones' (f zones' a) (g a)) :
    Converts zones (converted.andThen f) (plain.bind g) := by
  obtain ⟨zones', result⟩ := converted
  unfold Converted.andThen
  cases result with
  | none =>
    refine ⟨h.byId, fun hdone => ?_⟩
    obtain ⟨hzones, hplain⟩ := h.result hdone
    rw [← hplain]
    exact ⟨hzones, rfl⟩
  | some a =>
    have hstep := hf zones' a h.byId
    refine ⟨hstep.byId.trans h.byId, fun hdone => ?_⟩
    obtain ⟨hzones', hresult⟩ := hstep.result hdone
    obtain ⟨hzones, hplain⟩ := h.result hzones'
    rw [← hplain, hresult]
    exact ⟨hzones, rfl⟩

theorem byId_note (zones : Zones) (tzid : Text) : (zones.note tzid).byId = zones.byId := by
  unfold Zones.note
  split <;> rfl

theorem exhausted_note (zones : Zones) (tzid : Text) : (zones.note tzid).exhausted = zones.exhausted := by
  unfold Zones.note
  split <;> rfl

theorem converts_wallToUtc (zones : Zones) (wall : NaiveDateTime) (tzid : Option Text) :
    Converts zones (zones.wallToUtc wall tzid) (plainUtc zones.byId (.wall wall tzid)) := by
  unfold Zones.wallToUtc plainUtc wallUtc tooLong
  cases tzid with
  | none => exact Converts.done zones _
  | some tzid =>
    dsimp only
    by_cases hlong : maxTzidBytes < byteLen tzid
    · rw [if_pos hlong]
      exact ⟨rfl, fun h => nomatch h⟩
    · rw [if_neg hlong, if_neg (by simpa using hlong)]
      dsimp only [Option.bind_some]
      cases hzone : zones.byId tzid with
      | none => exact ⟨byId_note zones tzid, fun h => ⟨(exhausted_note zones tzid).symm.trans h, rfl⟩⟩
      | some zone =>
        dsimp only [Option.bind_some]
        cases hfound : (zone.toUtc wall zones.stepsLeft).2 with
        | none => exact ⟨rfl, fun h => nomatch h⟩
        | some utc =>
          rw [← toUtc_spec hfound]
          cases utc with
          | none =>
            have hnote := exhausted_note { zones with stepsLeft := (zone.toUtc wall zones.stepsLeft).1 } tzid
            exact ⟨byId_note _ tzid, fun h => ⟨hnote.symm.trans h, rfl⟩⟩
          | some utc => exact ⟨rfl, fun h => ⟨h, rfl⟩⟩

theorem converts_utc (zones : Zones) (time : IcsTime) : Converts zones (zones.utc time) (plainUtc zones.byId time) := by
  cases time with
  | date d => exact Converts.done zones _
  | utc time => exact Converts.done zones _
  | wall time tzid => exact converts_wallToUtc zones time tzid

theorem converts_times (e : VEventFields) (zones : Zones) : Converts zones (e.times zones) (plainTimes zones.byId e) := by
  unfold VEventFields.times plainTimes
  cases e.start with
  | none => exact Converts.done zones _
  | some startTime =>
    dsimp only [Option.bind_some]
    refine (converts_utc zones startTime).andThen fun zones' start hzones => ?_
    cases e.stop with
    | none => exact Converts.done zones' _
    | some stop =>
      dsimp only
      rw [← hzones]
      exact (converts_utc zones' stop).andThen fun zones'' stop _ => Converts.done zones'' _

theorem converts_convertAll (zones : Zones) (times : List IcsTime) :
    Converts zones (VEventFields.convertAll zones times) (plainAll zones.byId times) := by
  induction times generalizing zones with
  | nil => exact Converts.done zones _
  | cons time rest ih =>
    unfold VEventFields.convertAll plainAll
    refine (converts_utc zones time).andThen fun zones' utc hzones => ?_
    rw [← hzones]
    exact (ih zones').andThen fun zones'' utcs _ => Converts.done zones'' _

theorem converts_occurrence (rdate : RDate) (series : Int) (zones : Zones) :
    Converts zones (rdate.occurrence series zones) (plainOccurrence zones.byId series rdate) := by
  unfold RDate.occurrence plainOccurrence
  refine (converts_utc zones rdate.start).andThen fun zones' start hzones => ?_
  cases rdate.period with
  | none => exact Converts.done zones' _
  | some period =>
    cases period with
    | lasts length => exact Converts.done zones' _
    | ends time =>
      dsimp only
      rw [← hzones]
      exact (converts_utc zones' time).andThen fun zones'' stop _ => Converts.done zones'' _

/-! ## Plain series -/

/-- The occurrences of a rule in UTC: walked from the start, without skipping any, up to its count and its end. -/
def plainRule (table : ZoneTable) (rule : Rule) (anchor : NaiveDateTime) (tzid : Option Text) : List NaiveDateTime :=
  ((occurrences rule anchor).takeWhile fun wall => rule.untilAllows wall (wallUtc table tzid wall)).map
    (wallUtc table tzid)

/-- Whether an occurrence is in the window, and neither cancelled nor moved. -/
def kept (series : Series) (found : NaiveDateTime × Int) : Bool := series.inWindow found.1 found.2 && !series.skip found.1

def keyOf (series : Series) (found : NaiveDateTime × Int) : Text := occurrenceKey series.allDay found.1

/-- The first occurrence of each key that is not seen yet. -/
def firstOfKey (series : Series) : List Text → List (NaiveDateTime × Int) → List (NaiveDateTime × Int)
  | _, [] => []
  | seen, found :: rest =>
    if seen.contains (keyOf series found) then firstOfKey series seen rest
    else found :: firstOfKey series (keyOf series found :: seen) rest

/-- The occurrences of the rule, or the start without one. -/
def plainStarts (table : ZoneTable) (rule : Option Rule) (startTime : IcsTime) (start : NaiveDateTime) : List NaiveDateTime :=
  match rule with
  | some rule => plainRule table rule (VEventFields.anchorOf startTime).1 (VEventFields.anchorOf startTime).2
  | none => [start]

/-- The occurrences of a series: those of its rule, and the listed ones whose keys are new. -/
def plainSeries (table : ZoneTable) (e : VEventFields) (series : Series) (rule : Option Rule) (startTime : IcsTime)
    (start : NaiveDateTime) : List (NaiveDateTime × Int) :=
  let ofRule := ((plainStarts table rule startTime start).map fun utc => (utc, series.length)).filter (kept series)
  let listed := (e.rdates.filterMap (plainOccurrence table series.length)).filter (kept series)
  ofRule ++ firstOfKey series (ofRule.map (keyOf series)) listed

/-- The plain meaning of `VEventFields.expand`. -/
def plainExpand (table : ZoneTable) (e : VEventFields) (rule : Option Rule) (calendarId : Text) (etag : Option Text)
    (overridden : List Text) (expansion : Expansion) : List CalendarEvent :=
  match e.uid, e.start, plainTimes table e, plainAll table e.exdates with
  | some uid, some startTime, some times, some excluded =>
    let series := e.seriesOf uid calendarId etag overridden expansion times excluded
    (plainSeries table e series rule startTime times.1).map (e.eventOf uid calendarId etag series.allDay)
  | _, _, _, _ => []

/-! ## How far a conversion moves a time -/

theorem wallUtc_within (table : ZoneTable) (tzid : Option Text) (wall : NaiveDateTime) :
    WithinDay wall (wallUtc table tzid wall) := by
  unfold wallUtc
  cases hutc : (tzid.bind table).bind fun zone => plainToUtc zone wall with
  | none => exact WithinDay.refl wall
  | some utc =>
    obtain ⟨zone, -, hplain⟩ := Option.bind_eq_some_iff.mp hutc
    exact plainToUtc_within hplain

theorem plainUtc_within {time : IcsTime} {utc : NaiveDateTime} (h : plainUtc table time = some utc) :
    WithinDay time.written utc := by
  unfold plainUtc at h
  cases time with
  | date d =>
    cases h
    exact WithinDay.refl _
  | utc time =>
    cases h
    exact WithinDay.refl _
  | wall time tzid =>
    dsimp only at h
    split at h
    · cases h
    · cases h
      exact wallUtc_within table tzid time

end IcsPlain
