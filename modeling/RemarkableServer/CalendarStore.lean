import RemarkableServer.CalDav
import RemarkableServer.Ics
import RemarkableServer.Lib.Table
import RemarkableServer.StoredTimes

/-!
# The calendar database

A manager holds its calendars in memory and in a table, and their events in a table
only. Credentials are kept in a column of their own. A column of JSON is given by the
value it encodes, and a column of a time by the bytes that SQL compares.
-/
namespace CalendarStore

open RustText Chrono StoredTimes Tables
open CalDav (CalendarError Fetched)

inductive CalendarProvider where
  | ics | caldav | google | exchange | office365
  deriving DecidableEq, Repr

def CalendarProvider.display : CalendarProvider → Text
  | .ics => "ics".toList
  | .caldav => "caldav".toList
  | .google => "google".toList
  | .exchange => "exchange".toList
  | .office365 => "office365".toList

def CalendarProvider.read (t : Text) : CalendarProvider :=
  if t = "ics".toList then .ics
  else if t = "caldav".toList then .caldav
  else if t = "google".toList then .google
  else if t = "exchange".toList then .exchange
  else if t = "office365".toList then .office365
  else .ics

inductive AttendeeStatus where
  | needsAction | accepted | declined | tentative
  deriving DecidableEq, Repr

inductive AttendeeRole where
  | required | optional | chair | nonParticipant
  deriving DecidableEq, Repr

structure Attendee where
  name : Option Text
  email : Text
  status : AttendeeStatus
  role : AttendeeRole
  organizer : Bool
  deriving DecidableEq, Repr

structure CalendarEvent extends Ics.CalendarEvent where
  attendees : List Attendee
  organizer : Option Attendee
  meetingUrl : Option Text
  created : NaiveDateTime
  updated : NaiveDateTime
  deriving DecidableEq, Repr

structure CalendarSecrets where
  password : Option Text := none
  bearerToken : Option Text := none
  accessToken : Option Text := none
  refreshToken : Option Text := none
  clientSecret : Option Text := none
  deriving DecidableEq, Repr

inductive CalendarConfig where
  | ics (path : Text) (watch : Bool)
  | caldav (url username : Text) (password bearerToken collectionUrl : Option Text)
  | google (calendarId : Text) (accessToken refreshToken clientId clientSecret : Option Text)
    (tokenExpiresAt : Option NaiveDateTime)
  | exchange (server username : Text) (password : Option Text) (useEws : Bool)
  | office365 (tenantId : Text) (accessToken refreshToken clientId clientSecret calendarId : Option Text)
    (tokenExpiresAt : Option NaiveDateTime)
  deriving DecidableEq, Repr

namespace CalendarConfig

def secrets : CalendarConfig → CalendarSecrets
  | .ics _ _ => {}
  | .caldav _ _ password bearerToken _ => { password, bearerToken }
  | .exchange _ _ password _ => { password }
  | .google _ accessToken refreshToken _ clientSecret _ | .office365 _ accessToken refreshToken _ clientSecret _ _ =>
    { accessToken, refreshToken, clientSecret }

/-- Fields from a store; one that the store lacks stays. -/
def applySecrets (s : CalendarSecrets) : CalendarConfig → CalendarConfig
  | .ics path watch => .ics path watch
  | .caldav url username password bearerToken collectionUrl =>
    .caldav url username (s.password.or password) (s.bearerToken.or bearerToken) collectionUrl
  | .exchange server username password useEws => .exchange server username (s.password.or password) useEws
  | .google calendarId accessToken refreshToken clientId clientSecret tokenExpiresAt =>
    .google calendarId (s.accessToken.or accessToken) (s.refreshToken.or refreshToken) clientId
      (s.clientSecret.or clientSecret) tokenExpiresAt
  | .office365 tenantId accessToken refreshToken clientId clientSecret calendarId tokenExpiresAt =>
    .office365 tenantId (s.accessToken.or accessToken) (s.refreshToken.or refreshToken) clientId
      (s.clientSecret.or clientSecret) calendarId tokenExpiresAt

/-- What is serialized: the fields that are not skipped. -/
def serialized : CalendarConfig → CalendarConfig
  | .ics path watch => .ics path watch
  | .caldav url username _ _ collectionUrl => .caldav url username none none collectionUrl
  | .exchange server username _ useEws => .exchange server username none useEws
  | .google calendarId _ _ clientId _ tokenExpiresAt => .google calendarId none none clientId none tokenExpiresAt
  | .office365 tenantId _ _ clientId _ calendarId tokenExpiresAt =>
    .office365 tenantId none none clientId none calendarId tokenExpiresAt

/-- The `config` and `secrets` columns. -/
def toColumns (config : CalendarConfig) : CalendarConfig × Option CalendarSecrets :=
  (config.serialized, if config.secrets = {} then none else some config.secrets)

end CalendarConfig

structure Calendar where
  id : Text
  name : Text
  color : Option Text
  provider : CalendarProvider
  primary : Bool
  readOnly : Bool
  syncToken : Option Text
  lastSync : Option NaiveDateTime
  config : CalendarConfig
  deriving DecidableEq, Repr

/-! ## Rows -/

structure CalendarRow where
  name : Text
  color : Option Text
  provider : Text
  isPrimary : Int
  readOnly : Int
  syncToken : Option Text
  lastSync : Option Bytes
  config : CalendarConfig
  secrets : Option CalendarSecrets
  deriving DecidableEq

structure EventRow where
  calendarId : Text
  uid : Text
  summary : Text
  description : Option Text
  location : Option Text
  startTime : Bytes
  endTime : Bytes
  allDay : Int
  attendees : Option (List Attendee)
  organizer : Option Attendee
  meetingUrl : Option Text
  status : Option Text
  created : Bytes
  updated : Bytes
  etag : Option Text
  deriving DecidableEq

/-- `parse_from_rfc3339`: it reads what `to_rfc3339` writes of years with four digits. -/
structure TimeReader where
  read : Bytes → Option NaiveDateTime
  read_stored : ∀ t, FourDigits t → read (stored t) = some t

/-- The inverse of `to_rfc3339` is such a reader. -/
noncomputable def canonicalReader : TimeReader where
  read b := open Classical in if h : ∃ t, FourDigits t ∧ stored t = b then some h.choose else none
  read_stored t ht := by
    have hex : ∃ s, FourDigits s ∧ stored s = stored t := ⟨t, ht, rfl⟩
    rw [dif_pos hex, Option.some_inj]
    exact (stored_eq_iff hex.choose_spec.1 ht).mp hex.choose_spec.2

def boolColumn (b : Bool) : Int := if b then 1 else 0

def calendarRow (c : Calendar) : CalendarRow where
  name := c.name
  color := c.color
  provider := c.provider.display
  isPrimary := boolColumn c.primary
  readOnly := boolColumn c.readOnly
  syncToken := c.syncToken
  lastSync := c.lastSync.map stored
  config := c.config.toColumns.1
  secrets := c.config.toColumns.2

/-- A row as `load_calendars` reads it. -/
def loadRow (reader : TimeReader) (id : Text) (row : CalendarRow) : Calendar where
  id := id
  name := row.name
  color := row.color
  provider := .read row.provider
  primary := row.isPrimary != 0
  readOnly := row.readOnly != 0
  syncToken := row.syncToken
  lastSync := row.lastSync.bind reader.read
  config := match row.secrets with
    | some s => row.config.applySecrets s
    | none => row.config

def statusText : Ics.EventStatus → Text
  | .confirmed => "confirmed".toList
  | .tentative => "tentative".toList
  | .cancelled => "cancelled".toList

def readStatus (t : Text) : Ics.EventStatus :=
  if t = "tentative".toList then .tentative else if t = "cancelled".toList then .cancelled else .confirmed

def eventRow (e : CalendarEvent) : EventRow where
  calendarId := e.calendarId
  uid := e.uid
  summary := e.summary
  description := e.description
  location := e.location
  startTime := stored e.start
  endTime := stored e.stop
  allDay := boolColumn e.allDay
  attendees := some e.attendees
  organizer := e.organizer
  meetingUrl := e.meetingUrl
  status := some (statusText e.status)
  created := stored e.created
  updated := stored e.updated
  etag := e.etag

/-- A row of an event. A time that cannot be read is the time of the query. -/
def mapEvent (reader : TimeReader) (now : NaiveDateTime) (id : Text) (row : EventRow) : CalendarEvent where
  id := id
  calendarId := row.calendarId
  uid := row.uid
  summary := row.summary
  description := row.description
  location := row.location
  start := (reader.read row.startTime).getD now
  stop := (reader.read row.endTime).getD now
  allDay := row.allDay != 0
  attendees := row.attendees.getD []
  organizer := row.organizer
  meetingUrl := row.meetingUrl
  status := readStatus (row.status.getD "confirmed".toList)
  created := (reader.read row.created).getD now
  updated := (reader.read row.updated).getD now
  etag := row.etag

/-! ## What a row gives back -/

theorem CalendarProvider.read_display (p : CalendarProvider) : read p.display = p := by
  cases p <;> decide

@[simp] theorem boolColumn_bne_zero (b : Bool) : (boolColumn b != 0) = b := by
  cases b <;> rfl

theorem readStatus_statusText (s : Ics.EventStatus) : readStatus (statusText s) = s := by
  cases s <;> decide

/-- A configuration is back with its credentials. -/
theorem CalendarConfig.applySecrets_secrets (config : CalendarConfig) : config.serialized.applySecrets config.secrets = config := by
  cases config <;> simp [serialized, secrets, applySecrets]

/-- A configuration without credentials is serialized whole. -/
theorem CalendarConfig.serialized_eq_self {config : CalendarConfig} (h : config.secrets = {}) : config.serialized = config := by
  have hback := config.applySecrets_secrets
  rw [h] at hback
  cases config with
  | ics => rfl
  | _ => simpa [serialized, applySecrets] using hback

theorem CalendarConfig.secrets_serialized (config : CalendarConfig) : config.serialized.secrets = {} := by
  cases config <;> rfl

theorem loadRow_calendarRow (reader : TimeReader) (c : Calendar) (h : ∀ t ∈ c.lastSync, FourDigits t) :
    loadRow reader c.id (calendarRow c) = c := by
  have hsync : (c.lastSync.map stored).bind reader.read = c.lastSync := by
    cases ht : c.lastSync with
    | none => rfl
    | some t => exact reader.read_stored t (h t ht)
  have hconfig : (match c.config.toColumns.2 with
      | some s => c.config.toColumns.1.applySecrets s
      | none => c.config.toColumns.1) = c.config := by
    by_cases hs : c.config.secrets = {}
    · simp [CalendarConfig.toColumns, hs, CalendarConfig.serialized_eq_self hs]
    · simp [CalendarConfig.toColumns, hs, c.config.applySecrets_secrets]
  simp only [loadRow, calendarRow, CalendarProvider.read_display, boolColumn_bne_zero, hsync, hconfig]

/-- All times of an event have years of four digits. -/
structure Timely (e : CalendarEvent) : Prop where
  start : FourDigits e.start
  stop : FourDigits e.stop
  created : FourDigits e.created
  updated : FourDigits e.updated

theorem mapEvent_eventRow (reader : TimeReader) (now : NaiveDateTime) {e : CalendarEvent} (h : Timely e) :
    mapEvent reader now e.id (eventRow e) = e := by
  simp [mapEvent, eventRow, reader.read_stored _ h.start, reader.read_stored _ h.stop, reader.read_stored _ h.created,
    reader.read_stored _ h.updated, readStatus_statusText]

/-! ## The manager

Every statement or transaction may fail with an error of the database, and then changes nothing. -/

structure Manager where
  calendars : Table Text CalendarRow
  events : Table Text EventRow
  cached : Table Text Calendar

structure EventQuery where
  start : Option NaiveDateTime
  stop : Option NaiveDateTime
  limit : Option Nat

/-- `truncate`, if there is a limit. -/
def EventQuery.truncate (query : EventQuery) (events : List CalendarEvent) : List CalendarEvent :=
  match query.limit with
  | some limit => events.take limit
  | none => events

namespace Manager

def empty : Manager := ⟨∅, ∅, ∅⟩

/-- `load_calendars` of a new process. -/
def loadCalendars (reader : TimeReader) (m : Manager) : Manager :=
  { m with cached := .ofItems (fun e : Sigma fun _ : Text => CalendarRow => some (e.1, loadRow reader e.1 e.2)) m.calendars.entries }

def addCalendar (m : Manager) (calendar : Calendar) (failure : Option Text) : Except CalendarError Unit × Manager :=
  match failure with
  | some e => (.error (.database e), m)
  | none =>
    match m.calendars.lookup calendar.id with
    | some _ => (.error (.database "UNIQUE constraint failed: calendars.id".toList), m)
    | none =>
      (.ok (), { m with
        calendars := m.calendars.insert calendar.id (calendarRow calendar)
        cached := m.cached.insert calendar.id calendar })

def updateConfig (m : Manager) (id : Text) (config : CalendarConfig) (failure : Option Text) :
    Except CalendarError Unit × Manager :=
  match failure with
  | some e => (.error (.database e), m)
  | none =>
    match m.calendars.lookup id with
    | none => (.error (.notFound id), m)
    | some _ =>
      let columns := config.toColumns
      (.ok (), { m with
        calendars := m.calendars.modify id fun row => { row with config := columns.1, secrets := columns.2 }
        cached := m.cached.modify id fun calendar => { calendar with config := config } })

def setLastSync (m : Manager) (id : Text) (time : NaiveDateTime) (failure : Option Text) : Except CalendarError Unit × Manager :=
  match failure with
  | some e => (.error (.database e), m)
  | none =>
    (.ok (), { m with
      calendars := m.calendars.modify id fun row => { row with lastSync := some (stored time) }
      cached := m.cached.modify id fun calendar => { calendar with lastSync := some time } })

def removeCalendar (m : Manager) (id : Text) (failure : Option Text) : Except CalendarError Bool × Manager :=
  match failure with
  | some e => (.error (.database e), m)
  | none =>
    match m.calendars.lookup id with
    | none => (.ok false, m)
    | some _ => (.ok true, { m with calendars := m.calendars.erase id, cached := m.cached.erase id })

def upsertEventIn (events : Table Text EventRow) (event : CalendarEvent) : Table Text EventRow :=
  events.insert event.id (eventRow event)

def upsertEvent (m : Manager) (event : CalendarEvent) (failure : Option Text) : Except CalendarError Unit × Manager :=
  match failure with
  | some e => (.error (.database e), m)
  | none => (.ok (), { m with events := upsertEventIn m.events event })

def upsertEvents (m : Manager) (id : Text) (events : List CalendarEvent) (failure : Option Text) :
    Except CalendarError Nat × Manager :=
  match m.cached.lookup id, failure with
  | none, _ => (.error (.notFound id), m)
  | some _, some e => (.error (.database e), m)
  | some _, none =>
    (.ok (events.map (·.id)).dedup.length, { m with events := events.foldl upsertEventIn m.events })

/-- `calendar_id = ? AND start_time >= ? AND start_time <= ?`. -/
def inRange (id : Text) (start stop : Bytes) (row : EventRow) : Bool :=
  row.calendarId == id && TimeTest.notBefore.holds row.startTime start && TimeTest.notAfter.holds row.startTime stop

/-- The ids of the rows of a range. -/
def idsInRange (id : Text) (start stop : Bytes) (events : Table Text EventRow) : List Text :=
  (events.entries.filter fun e => inRange id start stop e.2).map (·.1)

/-- The rows of a range that a snapshot of it lacks. -/
def staleIds (id : Text) (start stop : NaiveDateTime) (snapshot : List CalendarEvent) (events : Table Text EventRow) : List Text :=
  (idsInRange id (stored start) (stored stop) events).filter (· ∉ snapshot.map (·.id))

def replaceRows (id : Text) (start stop : NaiveDateTime) (snapshot : List CalendarEvent) (events : Table Text EventRow) :
    Table Text EventRow :=
  let upserted := snapshot.foldl upsertEventIn events
  (staleIds id start stop snapshot upserted).foldl (fun t id => t.erase id) upserted

/-- The numbers of the events stored and of those removed. -/
def replaceEventsInRange (m : Manager) (id : Text) (start stop : NaiveDateTime) (events : List CalendarEvent)
    (failure : Option Text) : Except CalendarError (Nat × Nat) × Manager :=
  match m.cached.lookup id, failure with
  | none, _ => (.error (.notFound id), m)
  | some _, some e => (.error (.database e), m)
  | some _, none =>
    let stale := staleIds id start stop events (events.foldl upsertEventIn m.events)
    (.ok ((events.map (·.id)).dedup.length, stale.length), { m with events := replaceRows id start stop events m.events })

/-- The events of a calendar that start in a range, by their times. -/
def selectEvents (m : Manager) (reader : TimeReader) (now : NaiveDateTime) (id : Text) (start stop : NaiveDateTime) :
    List CalendarEvent :=
  let rows := m.events.entries.filter fun e => inRange id (stored start) (stored stop) e.2
  (byTime (rows.map fun e => Timed.mk e e.2.startTime)).map fun r => mapEvent reader now r.row.1 r.row.2

/-- A range without an end is 30 days long, which panics if that is after the last time. -/
def getEvents (m : Manager) (reader : TimeReader) (now : NaiveDateTime) (id : Text) (query : EventQuery) :
    Option (Except CalendarError (List CalendarEvent)) :=
  match m.cached.lookup id with
  | none => some (.error (.notFound id))
  | some _ =>
    let start := query.start.getD now
    (query.stop.or (start.checkedAddSigned (days 30))).map fun stop => .ok (query.truncate (m.selectEvents reader now id start stop))

end Manager

/-! ## Syncs -/

structure SyncResponse where
  calendarId : Text
  eventsSynced : Nat
  eventsRemoved : Nat
  success : Bool
  error : Option Text
  deriving DecidableEq

def SyncResponse.new (calendarId : Text) (eventsSynced : Nat) (error : Option Text) : SyncResponse :=
  ⟨calendarId, eventsSynced, 0, error.isNone, error⟩

/-- What the database does in a sync: the three statements of it, each with its error. -/
structure SyncFailures where
  config : Option Text
  events : Option Text
  lastSync : Option Text

/-- The errors of a step of a sync. -/
def errorText {α : Type} (prefixed : Text) : Except CalendarError α → List Text
  | .ok _ => []
  | .error e => [prefixed ++ e.display]

/-- `store_fetched` after the credentials: what came is stored, and what a complete answer lacks is removed. -/
def storeEvents (m : Manager) (id : Text) (start stop : NaiveDateTime) (errors : List Text) (failure : Option Text) :
    Except Text (Fetched CalendarEvent) → (Nat × Nat) × List Text × List Text × Manager
  | .ok ⟨events, none, warnings⟩ =>
    let saved := m.replaceEventsInRange id start stop events failure
    (saved.1.toOption.getD (0, 0), errors ++ errorText "saving events failed: ".toList saved.1, warnings, saved.2)
  | .ok ⟨events, some reason, warnings⟩ =>
    let saved := m.upsertEvents id events failure
    ((saved.1.toOption.getD 0, 0), reason :: errors ++ errorText "saving events failed: ".toList saved.1, warnings, saved.2)
  | .error e => ((0, 0), e :: errors, [], m)

/-- `store_fetched`, under one lock of the manager. -/
def storeFetched (m : Manager) (calendar : Calendar) (config : CalendarConfig) (start stop now : NaiveDateTime)
    (fetched : Except Text (Fetched CalendarEvent)) (failures : SyncFailures) : SyncResponse × Manager :=
  let saved := if config ≠ calendar.config then m.updateConfig calendar.id config failures.config else (.ok (), m)
  let errors := errorText "saving updated credentials failed: ".toList saved.1
  let ((storedEvents, removed), errors, warnings, m) := storeEvents saved.2 calendar.id start stop errors failures.events fetched
  let timed := if errors.isEmpty then m.setLastSync calendar.id now failures.lastSync else (.ok (), m)
  let errors := errors ++ errorText "saving sync time failed: ".toList timed.1 ++ warnings
  let error := if errors.isEmpty then none else some (CalDav.intercalate "; ".toList errors)
  ({ SyncResponse.new calendar.id storedEvents error with eventsRemoved := removed }, timed.2)

end CalendarStore
