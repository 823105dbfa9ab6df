import RemarkableServer.TimeZone

/-!
# The events of calendar data

`calendar/ics.rs`: the events of a parsed calendar object, each recurring one expanded into the
occurrences that overlap a window. Time zones, rules and events are paid for from budgets that
one sync shares; a budget that runs out marks the result as truncated.
-/
namespace Ics

open RustText Chrono Recurrence TimeZone

def untitledEvent : Text := "(no title)".toList

def maxRuleSteps : Nat := 6000000

def maxInstances : Nat := 100000

def maxExpandedBytes : Nat := 64 * 2 ^ 20

def maxZoneSteps : Nat := 12000000

def maxTzidBytes : Nat := 255

def utcNames : List Text :=
  ["UTC".toList, "Etc/UTC".toList, "GMT".toList, "Etc/GMT".toList, "UCT".toList, "Etc/UCT".toList,
    "Universal".toList, "Etc/Universal".toList, "Zulu".toList, "Z".toList, "Coordinated Universal Time".toList]

/-! ## Times -/

/-- A date, a time in UTC, or a local time in a zone, floating without one. -/
inductive IcsTime where
  | date (date : NaiveDate)
  | utc (time : NaiveDateTime)
  | wall (time : NaiveDateTime) (tzid : Option Text)
  deriving DecidableEq, Repr

namespace IcsTime

def isDate : IcsTime → Bool
  | date _ => true
  | _ => false

/-- The time as written; a date at midnight. -/
def written : IcsTime → NaiveDateTime
  | .date d => ⟨d, NaiveTime.midnight⟩
  | .utc time | .wall time _ => time

end IcsTime

/-- Decimal digits, with zeros in front up to a width. -/
def padded (width n : Nat) : Text := List.replicate (width - (showU64 n).length) '0' ++ showU64 n

/-- `%Y`: four digits, with a sign and at least four when they are not enough. -/
def yearText (y : Int) : Text :=
  if 0 ≤ y ∧ y < 10000 then padded 4 y.toNat else (if y < 0 then '-' else '+') :: padded 4 y.natAbs

def dateText (date : NaiveDate) : Text := yearText date.year ++ padded 2 date.month ++ padded 2 date.dayOfMonth

/-- `%H%M%S`, with a leap second as the sixtieth. -/
def timeText (time : NaiveTime) : Text :=
  padded 2 (time.secs.val / 3600) ++ padded 2 (time.secs.val / 60 % 60) ++
    padded 2 (time.secs.val % 60 + time.frac.val / 1000000000)

/-- What names an occurrence of a series: its date, or its start in UTC. -/
def occurrenceKey (allDay : Bool) (start : NaiveDateTime) : Text :=
  if allDay then dateText start.date
  else dateText start.date ++ ['T'] ++ timeText start.time ++ ['Z']

/-- The zones of a calendar object, the names used without one, and the budget of lookups. -/
structure Zones where
  byId : Text → Option Zone
  unknown : List Text
  stepsLeft : Nat
  exhausted : Bool

/-- A conversion, which uses up lookups and may fail. -/
abbrev Converted (α : Type) := Zones × Option α

namespace Zones

/-- A name without a zone is noted, unless it names UTC. -/
def note (zones : Zones) (tzid : Text) : Zones :=
  if (utcNames.any fun name => eqIgnoreAsciiCase name tzid) || zones.unknown.contains tzid then zones
  else { zones with unknown := tzid :: zones.unknown }

/-- `local_to_utc`: floating times, and those of an unknown zone, are read as UTC. -/
def wallToUtc (zones : Zones) (wall : NaiveDateTime) (tzid : Option Text) : Converted NaiveDateTime :=
  match tzid with
  | none => (zones, some wall)
  | some tzid =>
    if maxTzidBytes < byteLen tzid then ({ zones with exhausted := true }, none)
    else
      match zones.byId tzid with
      | none => (zones.note tzid, some wall)
      | some zone =>
        let found := zone.toUtc wall zones.stepsLeft
        match found.2 with
        | some (some utc) => ({ zones with stepsLeft := found.1 }, some utc)
        | some none => ({ zones with stepsLeft := found.1 }.note tzid, some wall)
        | none => ({ zones with stepsLeft := found.1, exhausted := true }, none)

def utc (zones : Zones) : IcsTime → Converted NaiveDateTime
  | .date d => (zones, some ⟨d, NaiveTime.midnight⟩)
  | .utc time => (zones, some time)
  | .wall time tzid => zones.wallToUtc time tzid

end Zones

/-- A conversion that goes on from another, if that has a result. -/
def Converted.andThen {α β : Type} (converted : Converted α) (f : Zones → α → Converted β) : Converted β :=
  match converted with
  | (zones, none) => (zones, none)
  | (zones, some a) => f zones a

def IcsTime.key (zones : Zones) : IcsTime → Converted Text
  | .date d => (zones, some (dateText d))
  | other => (zones.utc other).andThen fun zones utc => (zones, some (occurrenceKey false utc))

/-! ## Listed occurrences -/

inductive PeriodEnd where
  | ends (time : IcsTime)
  | lasts (length : Int)
  deriving DecidableEq, Repr

/-- A listed start, and the end its PERIOD gives. -/
structure RDate where
  start : IcsTime
  period : Option PeriodEnd
  deriving DecidableEq, Repr

namespace RDate

/-- How long the occurrence lasts on the clock, before any conversion. -/
def writtenLength (rdate : RDate) (series : Int) : Int :=
  match rdate.period with
  | some (.lasts length) => length
  | some (.ends time) => time.written.since rdate.start.written
  | none => series

/-- Whether the occurrence cannot overlap the window whatever its zone. -/
def misses (rdate : RDate) (series : Int) (start stop : NaiveDateTime) : Bool :=
  let slack := days 2
  let written := rdate.start.written
  let reach := max (rdate.writtenLength series) series
  let after := (stop.checkedAddSigned slack).any fun stop => stop ≤ written
  let before := ((written.checkedAddSigned reach).bind fun time => time.checkedAddSigned slack).any fun time => time ≤ start
  after || before

/-- The length of a PERIOD, if it has one and that is not negative. -/
def lengthOr (series : Int) (length : Option Int) : Int := (length.filter fun l => 0 ≤ l).getD series

/-- When the occurrence starts in UTC, and how long it lasts. -/
def occurrence (rdate : RDate) (series : Int) (zones : Zones) : Converted (NaiveDateTime × Int) :=
  (zones.utc rdate.start).andThen fun zones start =>
    match rdate.period with
    | some (.lasts length) => (zones, some (start, lengthOr series (some length)))
    | some (.ends time) =>
      (zones.utc time).andThen fun zones stop => (zones, some (start, lengthOr series (some (stop.since start))))
    | none => (zones, some (start, lengthOr series none))

end RDate

/-- When an occurrence ends; when it starts, if that is out of range. -/
def endOf (start : NaiveDateTime) (length : Int) : NaiveDateTime := (start.checkedAddSigned length).getD start

def overlaps (start : NaiveDateTime) (length : Int) (windowStart windowEnd : NaiveDateTime) : Bool :=
  start < windowEnd && (windowStart < endOf start length || (length == 0 && windowStart ≤ start))

/-! ## Expansions -/

/-- The window, and what is left of the budgets of one sync. -/
structure Expansion where
  start : NaiveDateTime
  stop : NaiveDateTime
  ruleStepsLeft : Nat
  instancesLeft : Nat
  bytesLeft : Nat
  zoneStepsLeft : Nat
  truncated : Bool
  unknownZones : List Text
  unexpanded : List (Text × Text)

namespace Expansion

def new (start stop : NaiveDateTime) : Expansion where
  start := start
  stop := stop
  ruleStepsLeft := maxRuleSteps
  instancesLeft := maxInstances
  bytesLeft := maxExpandedBytes
  zoneStepsLeft := maxZoneSteps
  truncated := false
  unknownZones := []
  unexpanded := []

/-- One more event, if the budgets can pay for it. -/
def take (expansion : Expansion) (bytes : Nat) : Expansion × Bool :=
  if expansion.instancesLeft = 0 ∨ expansion.bytesLeft < bytes then ({ expansion with truncated := true }, false)
  else
    ({ expansion with
        instancesLeft := expansion.instancesLeft - 1
        bytesLeft := expansion.bytesLeft - bytes }, true)

end Expansion

inductive EventStatus where
  | confirmed | tentative | cancelled
  deriving DecidableEq, Repr

structure CalendarEvent where
  id : Text
  calendarId : Text
  uid : Text
  summary : Text
  description : Option Text
  location : Option Text
  start : NaiveDateTime
  stop : NaiveDateTime
  allDay : Bool
  status : EventStatus
  etag : Option Text
  deriving DecidableEq, Repr

def textLen (t : Option Text) : Nat := t.elim 0 byteLen

def textBytes (event : CalendarEvent) : Nat :=
  byteLen event.id + byteLen event.calendarId + byteLen event.uid + byteLen event.summary + textLen event.description +
    textLen event.location + textLen event.etag

/-- An event is added if the expansion can pay for it. -/
def pushEvent (events : List CalendarEvent) (event : CalendarEvent) (etag : Option Text) (expansion : Expansion) :
    List CalendarEvent × Expansion :=
  let event := { event with etag := etag }
  let taken := expansion.take (textBytes event)
  (if taken.2 then events ++ [event] else events, taken.1)

/-! ## Series -/

/-- The properties of a VEVENT. -/
structure VEventFields where
  uid : Option Text
  summary : Option Text
  description : Option Text
  location : Option Text
  start : Option IcsTime
  stop : Option IcsTime
  duration : Option Int
  recurrenceId : Option IcsTime
  recurrenceIdRaw : Option Text
  status : EventStatus
  rrule : Option Text
  rdates : List RDate
  exdates : List IcsTime

/-- What the expansion of a series has found so far, and the budgets left. -/
structure Walking where
  zones : Zones
  expansion : Expansion
  starts : List (NaiveDateTime × Int)

/-- A series: which occurrences are cancelled or moved, how long the others last and what each costs. -/
structure Series where
  allDay : Bool
  length : Int
  excluded : List NaiveDateTime
  overridden : List Text
  bytes : Nat
  windowStart : NaiveDateTime
  windowEnd : NaiveDateTime

namespace Series

def skip (series : Series) (start : NaiveDateTime) : Bool :=
  series.excluded.contains start || series.overridden.contains (occurrenceKey series.allDay start)

def inWindow (series : Series) (start : NaiveDateTime) (length : Int) : Bool :=
  overlaps start length series.windowStart series.windowEnd

/-- An occurrence is kept if it can be paid for. -/
def push (series : Series) (w : Walking) (start : NaiveDateTime) (length : Int) : Walking × Bool :=
  let taken := w.expansion.take series.bytes
  ({ w with
      expansion := taken.1
      starts := if taken.2 then w.starts ++ [(start, length)] else w.starts }, taken.2)

/-- The date from which occurrences may overlap the window, if it is in range. -/
def walkStart (series : Series) : Option NaiveDate :=
  ((series.windowStart.checkedSubSigned series.length).bind fun time => time.checkedSubSigned (days 2)).map (·.date)

/-- Where the walk ends. -/
def walkEnd (series : Series) : NaiveDateTime := (series.windowEnd.checkedAddSigned (days 2)).getD series.windowEnd

/-- One occurrence of the rule. Those days before the window are only counted. -/
def visit (series : Series) (rule : Rule) (tzid : Option Text) (w : Walking) (wall : NaiveDateTime) : Walking × Bool :=
  if series.walkStart.any fun date => wall.date.day < date.day then (w, true)
  else
    match w.zones.wallToUtc wall tzid with
    | (zones, none) => ({ w with zones := zones }, false)
    | (zones, some utc) =>
      let w := { w with zones := zones }
      if !rule.untilAllows wall utc || series.windowEnd ≤ utc then (w, false)
      else if series.inWindow utc series.length && !series.skip utc then series.push w utc series.length
      else (w, true)

/-- The occurrences of the rule. -/
def walkRule (series : Series) (rule : Rule) (anchor : NaiveDateTime) (tzid : Option Text) (w : Walking) : Walking :=
  let after := if rule.hasCount then none else series.walkStart
  let walked := rule.walk (series.visit rule tzid) anchor after series.walkEnd w w.expansion.ruleStepsLeft
  { walked.state with
    expansion :=
      { walked.state.expansion with
        ruleStepsLeft := walked.budget
        truncated := walked.state.expansion.truncated || !walked.done } }

/-- The listed occurrences, each key once. -/
def addRDates (series : Series) : List RDate → Walking → List Text → Walking
  | [], w, _ => w
  | rdate :: rest, w, seen =>
    if rdate.misses series.length series.windowStart series.windowEnd then addRDates series rest w seen
    else
      match rdate.occurrence series.length w.zones with
      | (zones, none) => addRDates series rest { w with zones := zones } seen
      | (zones, some (start, length)) =>
        let w := { w with zones := zones }
        let key := occurrenceKey series.allDay start
        if !series.inWindow start length || series.skip start || seen.contains key then addRDates series rest w seen
        else
          let pushed := series.push w start length
          if pushed.2 then addRDates series rest pushed.1 (key :: seen) else pushed.1

end Series

namespace VEventFields

def defaultLength (allDay : Bool) : Int := if allDay then days 1 else hours 1

/-- The end of an event: as written if it is not before the start, else after a default length. -/
def stopOf (e : VEventFields) (start : NaiveDateTime) (stop : Option NaiveDateTime) (allDay : Bool) : NaiveDateTime :=
  (((stop.or (e.duration.bind start.checkedAddSigned)).filter fun stop => start ≤ stop).or
    (start.checkedAddSigned (defaultLength allDay))).getD start

/-- Start and end in UTC, and whether the event is all-day. -/
def times (e : VEventFields) (zones : Zones) : Converted (NaiveDateTime × NaiveDateTime × Bool) :=
  match e.start with
  | none => (zones, none)
  | some startTime =>
    (zones.utc startTime).andThen fun zones start =>
      match e.stop with
      | none => (zones, some (start, e.stopOf start none startTime.isDate, startTime.isDate))
      | some stop =>
        (zones.utc stop).andThen fun zones stop =>
          (zones, some (start, e.stopOf start (some stop) startTime.isDate, startTime.isDate))

/-- The UID of the series this is the master of. -/
def seriesUid (e : VEventFields) : Option Text :=
  e.uid.filter fun _ => e.recurrenceId.isNone && (e.rrule.isSome || !e.rdates.isEmpty)

def occurrenceBytes (e : VEventFields) (uid calendarId : Text) (etag : Option Text) : Nat :=
  2 * (byteLen calendarId + byteLen uid) + 18 + byteLen (e.summary.getD untitledEvent) + textLen e.description +
    textLen e.location + textLen etag

/-- The start of the summary, or the UID. -/
def label (e : VEventFields) : Text :=
  let name := (e.summary.or e.uid).getD untitledEvent
  if 60 < name.length then name.take 60 ++ "...".toList else name

def occurrence (e : VEventFields) (id uid calendarId : Text) (etag : Option Text) (start stop : NaiveDateTime)
    (allDay : Bool) : CalendarEvent where
  id := id
  calendarId := calendarId
  uid := uid
  summary := e.summary.getD untitledEvent
  description := e.description
  location := e.location
  start := start
  stop := stop
  allDay := allDay
  status := e.status
  etag := etag

/-- The part of an id that names the occurrence. -/
def recurrenceKey (e : VEventFields) (zones : Zones) : Converted (Option Text) :=
  match e.recurrenceId with
  | some rid => (rid.key zones).andThen fun zones key => (zones, some (some key))
  | none => (zones, some e.recurrenceIdRaw)

/-- The event, if it has a UID and a start and its times can be converted. -/
def event (e : VEventFields) (calendarId : Text) (zones : Zones) : Converted CalendarEvent :=
  match e.uid with
  | none => (zones, none)
  | some uid =>
    (e.times zones).andThen fun zones times =>
      (e.recurrenceKey zones).andThen fun zones rid =>
        let id := calendarId ++ [':'] ++ uid ++ rid.elim [] fun rid => ':' :: rid
        (zones, some (e.occurrence id uid calendarId none times.1 times.2.1 times.2.2))

/-- Times in UTC, if all can be converted. -/
def convertAll (zones : Zones) : List IcsTime → Converted (List NaiveDateTime)
  | [] => (zones, some [])
  | time :: rest =>
    (zones.utc time).andThen fun zones utc =>
      (convertAll zones rest).andThen fun zones utcs => (zones, some (utc :: utcs))

def excluded (e : VEventFields) (zones : Zones) : Converted (List NaiveDateTime) := convertAll zones e.exdates

/-- What is left of a series whose rule is not supported: its first occurrence. -/
def firstOccurrence (e : VEventFields) (calendarId : Text) (zones : Zones) (overridden : List Text) :
    Converted CalendarEvent :=
  (e.event calendarId zones).andThen fun zones event =>
    (e.excluded zones).andThen fun zones excluded =>
      let moved := overridden.contains (occurrenceKey event.allDay event.start)
      (zones, if !excluded.contains event.start && !moved then some event else none)

/-- The anchor of a rule, and the zone of its times. -/
def anchorOf : IcsTime → NaiveDateTime × Option Text
  | .date d => (⟨d, NaiveTime.midnight⟩, none)
  | .utc time => (time, none)
  | .wall time tzid => (time, tzid)

/-- The occurrences of a series: those of its rule, or its start without one, and those listed. -/
def expandSeries (e : VEventFields) (series : Series) (rule : Option Rule) (startTime : IcsTime) (start : NaiveDateTime)
    (w : Walking) : Walking :=
  let w := match rule with
    | some rule => series.walkRule rule (anchorOf startTime).1 (anchorOf startTime).2 w
    | none =>
      if series.inWindow start series.length && !series.skip start then (series.push w start series.length).1 else w
  series.addRDates e.rdates w (w.starts.map fun found => occurrenceKey series.allDay found.1)

/-- The series of an event, once its times and its EXDATEs are converted. -/
def seriesOf (e : VEventFields) (uid calendarId : Text) (etag : Option Text) (overridden : List Text)
    (expansion : Expansion) (times : NaiveDateTime × NaiveDateTime × Bool) (excluded : List NaiveDateTime) : Series where
  allDay := times.2.2
  length := times.2.1.since times.1
  excluded := excluded
  overridden := overridden
  bytes := e.occurrenceBytes uid calendarId etag
  windowStart := expansion.start
  windowEnd := expansion.stop

/-- The event of an occurrence that was found. -/
def eventOf (e : VEventFields) (uid calendarId : Text) (etag : Option Text) (allDay : Bool)
    (found : NaiveDateTime × Int) : CalendarEvent :=
  e.occurrence (calendarId ++ [':'] ++ uid ++ [':'] ++ occurrenceKey allDay found.1) uid calendarId etag found.1
    (endOf found.1 found.2) allDay

/-- The occurrences of a recurring event that overlap the window. -/
def expand (e : VEventFields) (rule : Option Rule) (calendarId : Text) (etag : Option Text) (overridden : List Text)
    (zones : Zones) (expansion : Expansion) : Zones × Expansion × List CalendarEvent :=
  match e.times zones with
  | (zones, none) => (zones, expansion, [])
  | (zones, some times) =>
    match e.uid, e.start with
    | some uid, some startTime =>
      match e.excluded zones with
      | (zones, none) => (zones, expansion, [])
      | (zones, some excluded) =>
        let series := e.seriesOf uid calendarId etag overridden expansion times excluded
        let w := e.expandSeries series rule startTime times.1 ⟨zones, expansion, []⟩
        (w.zones, w.expansion, w.starts.map (e.eventOf uid calendarId etag series.allDay))
    | _, _ => (zones, expansion, [])

end VEventFields

/-! ## Documents -/

structure Document where
  events : List VEventFields
  eventsDropped : Bool
  zones : Zones

/-- The occurrences with an event of their own, by UID, and the series with one whose time could not be converted. -/
structure Overrides where
  keys : List (Text × Text)
  unresolved : List Text

def Overrides.of (overrides : Overrides) (uid : Text) : List Text :=
  (overrides.keys.filter fun key => key.1 == uid).map (·.2)

def collectOverrides : List VEventFields → Zones → Overrides → Zones × Overrides
  | [], zones, overrides => (zones, overrides)
  | e :: rest, zones, overrides =>
    match e.uid, e.recurrenceId with
    | some uid, some rid =>
      match rid.key zones with
      | (zones, some key) => collectOverrides rest zones { overrides with keys := overrides.keys ++ [(uid, key)] }
      | (zones, none) => collectOverrides rest zones { overrides with unresolved := uid :: overrides.unresolved }
    | _, _ => collectOverrides rest zones overrides

/-- What the reading of a document has found so far. -/
structure Reading where
  zones : Zones
  expansion : Expansion
  events : List CalendarEvent

/-- The event that a conversion gives is added. -/
def Reading.add (r : Reading) (etag : Option Text) (converted : Converted CalendarEvent) : Reading :=
  match converted with
  | (zones, none) => { r with zones := zones }
  | (zones, some event) =>
    let pushed := pushEvent r.events event etag r.expansion
    { zones := zones, expansion := pushed.2, events := pushed.1 }

/-- A series whose rule is not supported is noted once. -/
def Expansion.noteUnexpanded (expansion : Expansion) (uid label : Text) : Expansion :=
  if expansion.unexpanded.any fun noted => noted.1 == uid then expansion
  else { expansion with unexpanded := expansion.unexpanded ++ [(uid, label)] }

/-- One event of a document. -/
def readEvent (formats : Formats) (calendarId : Text) (etag : Option Text) (overrides : Overrides) (r : Reading)
    (e : VEventFields) : Reading :=
  match e.seriesUid with
  | none => r.add etag (e.event calendarId r.zones)
  | some uid =>
    let rule := e.rrule.map (Rule.parse formats)
    let unsupported := rule.any Option.isNone
    let r := if unsupported then { r with expansion := r.expansion.noteUnexpanded uid e.label } else r
    if overrides.unresolved.contains uid then r
    else if unsupported then r.add etag (e.firstOccurrence calendarId r.zones (overrides.of uid))
    else
      let expanded := e.expand (rule.getD none) calendarId etag (overrides.of uid) r.zones r.expansion
      { zones := expanded.1, expansion := expanded.2.1, events := r.events ++ expanded.2.2 }

/-- The events of a document, and what is left of the budgets. -/
def expandDocument (formats : Formats) (doc : Document) (calendarId : Text) (etag : Option Text) (expansion : Expansion) :
    List CalendarEvent × Expansion :=
  let zones := { doc.zones with stepsLeft := expansion.zoneStepsLeft }
  let (zones, overrides) := collectOverrides doc.events zones ⟨[], []⟩
  let r := doc.events.foldl (readEvent formats calendarId etag overrides)
    { zones := zones, expansion := { expansion with truncated := expansion.truncated || doc.eventsDropped }, events := [] }
  (r.events,
    { r.expansion with
      zoneStepsLeft := r.zones.stepsLeft
      truncated := r.expansion.truncated || r.zones.exhausted
      unknownZones := r.expansion.unknownZones ++ r.zones.unknown.filter fun tzid => !r.expansion.unknownZones.contains tzid })

end Ics
