import RemarkableServer.Ics

/-!
# The parser of calendar data

`calendar/ics.rs`: lines are unfolded and split into a name, parameters and a value, and one
state goes through them for the events and the zones.
-/
namespace Ics

open RustText Chrono Recurrence TimeZone

/-! ## Lines -/

/-- What a line adds to the one before. -/
def continuation : Text → Option Text
  | ' ' :: rest => some rest
  | '\t' :: rest => some rest
  | _ => none

/-- The lines after those that go on with the first. -/
def unfoldFrom (line : Text) : List Text → List Text
  | [] => [line]
  | raw :: rest =>
    match continuation raw with
    | some more => unfoldFrom (line ++ more) rest
    | none => line :: unfoldFrom raw rest

def unfoldLines : List Text → List Text
  | [] => []
  | raw :: rest => unfoldFrom raw rest

def unfoldIcsLines (content : Text) : List Text := unfoldLines (lines content)

/-- Up to the first colon that is not quoted, and after it. -/
def splitAtColon (quoted : Bool) : Text → Option (Text × Text)
  | [] => none
  | c :: rest =>
    if c == ':' && !quoted then some ([], rest)
    else (splitAtColon (quoted != (c == '"')) rest).map fun (key, value) => (c :: key, value)

def splitIcsProperty (line : Text) : Option (Text × Text) := splitAtColon false line

/-- The parts between semicolons that are not quoted. -/
def splitParts (quoted : Bool) : Text → List Text
  | [] => [[]]
  | c :: rest =>
    if c == ';' && !quoted then [] :: splitParts quoted rest
    else
      match splitParts (quoted != (c == '"')) rest with
      | [] => [[c]]
      | part :: parts => (c :: part) :: parts

/-- `trim_matches('"')`. -/
def trimQuotes (t : Text) : Text := (t.dropWhile (· == '"')).rdropWhile (· == '"')

abbrev Params := List (Text × Text)

def splitName (key : Text) : Text × Params :=
  match splitParts false key with
  | [] => ([], [])
  | name :: params =>
    (toAsciiUppercase (trim name),
      params.filterMap fun p => (splitOnce '=' p).map fun (k, v) => (toAsciiUppercase (trim k), trimQuotes (trim v)))

def param (params : Params) (name : Text) : Option Text := (params.find? fun p => p.1 == name).map (·.2)

/-! ## Values -/

def unescapeIcsText : Text → Text
  | [] => []
  | ['\\'] => ['\\']
  | '\\' :: c :: rest => (if c = 'n' ∨ c = 'N' then '\n' else c) :: unescapeIcsText rest
  | c :: rest => c :: unescapeIcsText rest

/-- The longest `Duration`, in nanoseconds. -/
def maxDuration : Int := 9223372036854775807 * 1000000

def inDuration (n : Int) : Option Int := if -maxDuration ≤ n ∧ n ≤ maxDuration then some n else none

/-- The length of a part of a duration. -/
def durationPart (n : Int) (unit : Char) (inTime : Bool) : Option Int :=
  if unit = 'W' ∧ inTime = false then inDuration (days (7 * n))
  else if unit = 'D' ∧ inTime = false then inDuration (days n)
  else if unit = 'H' ∧ inTime = true then inDuration (hours n)
  else if unit = 'M' ∧ inTime = true then inDuration (seconds (60 * n))
  else if unit = 'S' ∧ inTime = true then inDuration (seconds n)
  else none

/-- `str::parse::<i64>` of digits. -/
def parseDigits (digits : Text) : Option Int :=
  ((parseU64 digits).filter (· ≤ 9223372036854775807)).map fun n => (n : Int)

/-- The parts after the P: their sum so far, the digits of the next, and whether T and any part came before. -/
def durationFrom (total : Int) (digits : Text) (inTime any : Bool) : Text → Option Int
  | [] => if !any || !digits.isEmpty then none else some total
  | c :: rest =>
    if c.isDigit then durationFrom total (digits ++ [c]) inTime any rest
    else if c == 'T' && digits.isEmpty && !inTime then durationFrom total digits true any rest
    else
      (parseDigits digits).bind fun n =>
        (durationPart n c inTime).bind fun part =>
          (inDuration (total + part)).bind fun total => durationFrom total [] inTime true rest

def parseIcsDuration (value : Text) : Option Int :=
  let value := trim value
  let negative := value.head? == some '-'
  let rest := if value.head? = some '-' ∨ value.head? = some '+' then value.tail else value
  if rest.head? = some 'P' then (durationFrom 0 [] false false rest.tail).map fun total => if negative then -total else total
  else none

/-- A value of a property with parameters, of which one is the zone. -/
def IcsTime.parseIn (formats : Formats) (params : Params) (tzid : Option Text) (value : Text) : Option IcsTime :=
  let value := trim value
  let dateOnly := (param params "VALUE".toList).any (fun v => eqIgnoreAsciiCase v "DATE".toList) ||
    (value.length == 8 && value.all Char.isDigit)
  match if dateOnly then formats.parseDate value else none with
  | some d => some (.date d)
  | none =>
    if value.getLast? = some 'Z' then (formats.parseDateTime value.dropLast).map .utc
    else (formats.parseDateTime value).map fun time => .wall time tzid

def tzidParam (params : Params) : Option Text := param params "TZID".toList

def IcsTime.parse (formats : Formats) (params : Params) (value : Text) : Option IcsTime :=
  IcsTime.parseIn formats params (tzidParam params) value

def PeriodEnd.parse (formats : Formats) (params : Params) (tzid : Option Text) (value : Text) : Option PeriodEnd :=
  if (value.dropWhile fun c => c == '+' || c == '-').head? = some 'P' then (parseIcsDuration value).map .lasts
  else (IcsTime.parseIn formats params tzid value).map .ends

def RDate.parse (formats : Formats) (params : Params) (tzid : Option Text) (value : Text) : Option RDate :=
  match splitOnce '/' value with
  | some (start, stop) =>
    (IcsTime.parseIn formats params tzid start).map fun start => ⟨start, PeriodEnd.parse formats params tzid (trim stop)⟩
  | none => (IcsTime.parseIn formats params tzid value).map fun start => ⟨start, none⟩

def EventStatus.parse (value : Text) : EventStatus :=
  let value := toAsciiUppercase (trim value)
  if value = "CANCELLED".toList then .cancelled
  else if value = "TENTATIVE".toList then .tentative
  else .confirmed

namespace VEventFields

/-- An event without properties. -/
def blank : VEventFields := ⟨none, none, none, none, none, none, none, none, none, .confirmed, none, [], []⟩

def set (formats : Formats) (e : VEventFields) (name : Text) (params : Params) (value : Text) : VEventFields :=
  if name = "UID".toList then { e with uid := some value }
  else if name = "SUMMARY".toList then { e with summary := some (unescapeIcsText value) }
  else if name = "DESCRIPTION".toList then { e with description := some (unescapeIcsText value) }
  else if name = "LOCATION".toList then { e with location := some (unescapeIcsText value) }
  else if name = "DTSTART".toList then { e with start := IcsTime.parse formats params value }
  else if name = "DTEND".toList then { e with stop := IcsTime.parse formats params value }
  else if name = "DURATION".toList then { e with duration := parseIcsDuration value }
  else if name = "RECURRENCE-ID".toList then
    { e with recurrenceId := IcsTime.parse formats params value, recurrenceIdRaw := some (trim value) }
  else if name = "RRULE".toList then { e with rrule := some value }
  else if name = "RDATE".toList then
    { e with rdates := e.rdates ++ (split ',' value).filterMap (RDate.parse formats params (tzidParam params)) }
  else if name = "EXDATE".toList then
    { e with exdates := e.exdates ++ (split ',' value).filterMap (IcsTime.parseIn formats params (tzidParam params)) }
  else if name = "STATUS".toList then { e with status := EventStatus.parse value }
  else e

end VEventFields

/-! ## The parser -/

/-- Where the parser is. -/
inductive State where
  | outside
  | event (fields : VEventFields) (nested : Nat)
  | timezone (tzid : Option Text) (zone : Zone) (observance : Option Observance) (nested : Nat)

/-- An observance without properties. -/
def blankObservance : Observance := ⟨none, none, none, none, []⟩

/-- A line with a name. -/
structure Property where
  name : Text
  params : Params
  value : Text
  deriving DecidableEq

def readProperty (line : Text) : Option Property :=
  (splitIcsProperty (trim line)).map fun (key, value) => ⟨(splitName key).1, (splitName key).2, value⟩

namespace Property

/-- The component that a BEGIN or an END names. -/
def component (p : Property) : Text :=
  if p.name = "BEGIN".toList ∨ p.name = "END".toList then toAsciiUppercase (trim p.value) else []

def begins (p : Property) (component : Text) : Bool := p.name == "BEGIN".toList && p.component == component

def ends (p : Property) (component : Text) : Bool := p.name == "END".toList && p.component == component

def isObservance (p : Property) : Bool := p.component == "STANDARD".toList || p.component == "DAYLIGHT".toList

end Property

def Zones.blank : Zones := ⟨fun _ => none, [], maxZoneSteps, false⟩

def Zones.insert (zones : Zones) (tzid : Text) (zone : Zone) : Zones :=
  { zones with byId := fun id => if id = tzid then some zone else zones.byId id }

/-- A zone is kept, an event that has not ended is dropped. -/
def Document.finish (doc : Document) : State → Document
  | .timezone (some tzid) zone observance _ => { doc with zones := doc.zones.insert tzid (observance.elim zone zone.add) }
  | _ => doc

/-- Another event, as long as more are kept. -/
def Document.addEvent (doc : Document) (maxEvents : Nat) (fields : VEventFields) : Document :=
  if doc.events.length < maxEvents then { doc with events := doc.events ++ [fields] }
  else { doc with eventsDropped := true }

/-- A property within an event. -/
def eventProperty (formats : Formats) (fields : VEventFields) (nested : Nat) (p : Property) : State :=
  if p.name = "BEGIN".toList then .event fields (nested + 1)
  else if p.name = "END".toList then .event fields (nested - 1)
  else if nested = 0 then .event (fields.set formats p.name p.params p.value) nested
  else .event fields nested

/-- A property within a zone. -/
def timezoneProperty (formats : Formats) (tzid : Option Text) (zone : Zone) (observance : Option Observance) (nested : Nat)
    (p : Property) : State :=
  if p.name = "BEGIN".toList ∧ p.isObservance = true ∧ nested = 0 ∧ observance.isNone = true then
    .timezone tzid zone (some blankObservance) nested
  else if p.name = "END".toList ∧ p.isObservance = true ∧ nested = 0 ∧ observance.isSome = true then
    .timezone tzid (zone.add (observance.getD blankObservance)) none nested
  else if p.name = "BEGIN".toList then .timezone tzid zone observance (nested + 1)
  else if p.name = "END".toList then .timezone tzid zone observance (nested - 1)
  else if 0 < nested then .timezone tzid zone observance nested
  else if p.name = "TZID".toList ∧ observance.isNone = true then .timezone (some (trim p.value)) zone observance nested
  else .timezone tzid zone (observance.map fun o => o.set formats p.name p.value) nested

/-- One property. -/
def parseProperty (formats : Formats) (maxEvents : Nat) (doc : Document) (state : State) (p : Property) : Document × State :=
  if p.begins "VEVENT".toList then (doc.finish state, .event .blank 0)
  else
    match state with
    | .outside =>
      if p.begins "VTIMEZONE".toList then (doc, .timezone none Zone.empty none 0) else (doc, .outside)
    | .event fields nested =>
      if p.ends "VEVENT".toList then (doc.addEvent maxEvents fields, .outside)
      else (doc, eventProperty formats fields nested p)
    | .timezone tzid zone observance nested =>
      if p.ends "VTIMEZONE".toList then (doc.finish state, .outside)
      else (doc, timezoneProperty formats tzid zone observance nested p)

def parseLine (formats : Formats) (maxEvents : Nat) (parsing : Document × State) (line : Text) : Document × State :=
  match readProperty line with
  | none => parsing
  | some p => parseProperty formats maxEvents parsing.1 parsing.2 p

def Document.blank : Document := ⟨[], false, .blank⟩

/-- The events and zones of unfolded lines. -/
def parseLines (formats : Formats) (maxEvents : Nat) (ls : List Text) : Document :=
  let (doc, state) := ls.foldl (parseLine formats maxEvents) (.blank, .outside)
  doc.finish state

/-- `Document::parse`. -/
def Document.parse (formats : Formats) (content : Text) (maxEvents : Nat) : Document :=
  parseLines formats maxEvents (unfoldIcsLines content)

end Ics
