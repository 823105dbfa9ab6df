import RemarkableServer.CalendarStore
import RemarkableServer.Lib.StableSort
import RemarkableServer.Lib.Unwinding

/-!
# Calendars over whole runs

Syncs, changes and removals of many calendars share one database, and any statement of
them may fail. A calendar is as its own operations leave it, a restart finds what was in
memory, and the events that a complete sync brought are the ones that are read afterwards.
-/
namespace CalendarStore

open RustText Chrono StoredTimes Tables Unwinding
open CalDav (CalendarError Fetched)

/-- An operation of the manager, and the error of the database if it fails. -/
inductive Op where
  | addCalendar (calendar : Calendar) (failure : Option Text)
  | updateConfig (id : Text) (config : CalendarConfig) (failure : Option Text)
  | setLastSync (id : Text) (time : NaiveDateTime) (failure : Option Text)
  | removeCalendar (id : Text) (failure : Option Text)
  | upsertEvent (event : CalendarEvent) (failure : Option Text)
  | upsertEvents (id : Text) (events : List CalendarEvent) (failure : Option Text)
  | replaceEventsInRange (id : Text) (start stop : NaiveDateTime) (events : List CalendarEvent) (failure : Option Text)
  | restart

/-- The calendar of an operation; a restart is of all. -/
def Op.calendar : Op → Option Text
  | .addCalendar calendar _ => some calendar.id
  | .updateConfig id _ _ | .setLastSync id _ _ | .removeCalendar id _ | .upsertEvents id _ _ => some id
  | .replaceEventsInRange id _ _ _ _ => some id
  | .upsertEvent event _ => some event.calendarId
  | .restart => none

def Op.events : Op → List CalendarEvent
  | .upsertEvent event _ => [event]
  | .upsertEvents _ events _ | .replaceEventsInRange _ _ _ events _ => events
  | _ => []

def Op.concerns (id : Text) (op : Op) : Bool := op.calendar.all (· == id)

def step (reader : TimeReader) (m : Manager) : Op → Manager
  | .addCalendar calendar failure => (m.addCalendar calendar failure).2
  | .updateConfig id config failure => (m.updateConfig id config failure).2
  | .setLastSync id time failure => (m.setLastSync id time failure).2
  | .removeCalendar id failure => (m.removeCalendar id failure).2
  | .upsertEvent event failure => (m.upsertEvent event failure).2
  | .upsertEvents id events failure => (m.upsertEvents id events failure).2
  | .replaceEventsInRange id start stop events failure => (m.replaceEventsInRange id start stop events failure).2
  | .restart => m.loadCalendars reader

def run (reader : TimeReader) (ops : List Op) (m : Manager) : Manager := ops.foldl (step reader) m

/-- An event as the providers make it: of its calendar, whose id begins its own. -/
structure EventOf (id : Text) (e : CalendarEvent) : Prop where
  calendar : e.calendarId = id
  id : id ++ [':'] <+: e.id

/-- Ids of calendars have no colon. -/
structure Op.Proper (op : Op) : Prop where
  plain : ∀ id ∈ op.calendar, ':' ∉ id
  events : ∀ id ∈ op.calendar, ∀ e ∈ op.events, EventOf id e

/-- The id of a calendar is what comes before the first colon. -/
theorem eq_of_prefixes {a b t : Text} (ha : ':' ∉ a) (hb : ':' ∉ b) (hat : a ++ [':'] <+: t) (hbt : b ++ [':'] <+: t) : a = b := by
  have hbefore : ∀ {c : Text}, ':' ∉ c → c ++ [':'] <+: t → t.takeWhile (· ≠ ':') = c := by
    rintro c hc ⟨rest, rfl⟩
    have hall : ∀ d ∈ c, decide (d ≠ ':') = true := fun d hd => by simpa using fun he : d = ':' => hc (he ▸ hd)
    rw [List.append_assoc, List.takeWhile_append_of_pos hall]
    simp
  rw [← hbefore ha hat, ← hbefore hb hbt]

/-! ## What each operation does to one calendar -/

/-- The rows of a calendar, and what is in memory of it. -/
structure View where
  row : Option CalendarRow
  cached : Option Calendar
  events : Table Text EventRow

def ofCalendar (id : Text) (_ : Text) (row : EventRow) : Bool := row.calendarId == id

def view (id : Text) (m : Manager) : View :=
  ⟨m.calendars.lookup id, m.cached.lookup id, m.events.retain (ofCalendar id)⟩

/-- Rows of events are under the ids that their calendars give. -/
def Owned (events : Table Text EventRow) : Prop :=
  ∀ id row, events.lookup id = some row → ':' ∉ row.calendarId ∧ row.calendarId ++ [':'] <+: id

theorem lookup_loadCalendars (reader : TimeReader) (m : Manager) (id : Text) :
    (m.loadCalendars reader).cached.lookup id = (m.calendars.lookup id).map (loadRow reader id) := by
  refine Option.ext fun c => ?_
  rw [Manager.loadCalendars, lookup_ofItems_of_unique, Option.map_eq_some_iff]
  · constructor
    · rintro ⟨⟨k, row⟩, hrow, heq⟩
      cases heq
      exact ⟨row, mem_entries_iff.mp hrow, rfl⟩
    · rintro ⟨row, hrow, rfl⟩
      exact ⟨⟨id, row⟩, mem_entries_iff.mpr hrow, rfl⟩
  · rintro ⟨k, row⟩ hrow ⟨k', row'⟩ hrow' v w heq heq'
    cases heq
    cases heq'
    have hrow := mem_entries_iff.mp hrow
    rw [mem_entries_iff.mp hrow'] at hrow
    cases hrow
    rfl

theorem lookup_foldl_upsert (events : List CalendarEvent) (t : Table Text EventRow) (id : Text) :
    (events.foldl Manager.upsertEventIn t).lookup id =
      ((events.reverse.find? (·.id = id)).map eventRow).or (t.lookup id) := by
  induction events generalizing t with
  | nil => simp
  | cons e events ih =>
    rw [List.foldl_cons, ih, Manager.upsertEventIn, lookup_insert, List.reverse_cons, List.find?_append]
    cases hfind : events.reverse.find? (·.id = id) with
    | some e' => simp
    | none =>
      by_cases he : e.id = id
      · simp [he]
      · simp [he, Ne.symm he]

theorem lookup_foldl_erase (ids : List Text) (t : Table Text EventRow) (id : Text) :
    (ids.foldl (fun t id => t.erase id) t).lookup id = if id ∈ ids then none else t.lookup id := by
  induction ids generalizing t with
  | nil => simp
  | cons i ids ih =>
    rw [List.foldl_cons, ih, lookup_erase]
    by_cases hi : id = i
    · simp [hi]
    · simp [hi]

theorem Owned.insert {events : Table Text EventRow} (h : Owned events) {id : Text} (hid : ':' ∉ id) {e : CalendarEvent}
    (he : EventOf id e) : Owned (Manager.upsertEventIn events e) := by
  intro k row hrow
  rw [Manager.upsertEventIn, lookup_insert] at hrow
  split at hrow
  next hk =>
    obtain rfl : eventRow e = row := by simpa using hrow
    have hcal : (eventRow e).calendarId = id := he.calendar
    rw [hk, hcal]
    exact ⟨hid, he.id⟩
  · exact h k row hrow

theorem Owned.foldl_upsert {events : Table Text EventRow} (h : Owned events) {id : Text} (hid : ':' ∉ id)
    {es : List CalendarEvent} (hes : ∀ e ∈ es, EventOf id e) : Owned (es.foldl Manager.upsertEventIn events) := by
  induction es generalizing events with
  | nil => exact h
  | cons e es ih =>
    apply ih (h.insert hid (hes e List.mem_cons_self))
    exact fun e' he' => hes e' (List.mem_cons_of_mem e he')

theorem retain_foldl_upsert {id : Text} (events : Table Text EventRow) {es : List CalendarEvent}
    (hes : ∀ e ∈ es, e.calendarId = id) : (es.foldl Manager.upsertEventIn events).retain (ofCalendar id) =
      es.foldl Manager.upsertEventIn (events.retain (ofCalendar id)) := by
  induction es generalizing events with
  | nil => rfl
  | cons e es ih =>
    have he : ofCalendar id e.id (eventRow e) = true := by simp [ofCalendar, eventRow, hes e List.mem_cons_self]
    rw [List.foldl_cons, ih _ fun e' he' => hes e' (List.mem_cons_of_mem e he'), Manager.upsertEventIn,
      retain_insert_of_keep _ he]
    rfl

/-- A row under an id of one calendar is not one of another. -/
theorem lookup_retain_other {events : Table Text EventRow} (h : Owned events) {c d k : Text} (hd : ':' ∉ d) (hne : d ≠ c)
    (hk : d ++ [':'] <+: k) : AList.lookup k (events.retain (ofCalendar c)) = none := by
  rw [lookup_retain, Option.filter_eq_none_iff]
  intro row hrow
  obtain ⟨hplain, hprefix⟩ := h k row hrow
  have hcal := eq_of_prefixes hplain hd hprefix hk
  simp [ofCalendar, hcal, hne]

theorem retain_foldl_upsert_other {events : Table Text EventRow} (h : Owned events) {c d : Text} (hd : ':' ∉ d) (hne : d ≠ c)
    {es : List CalendarEvent} (hes : ∀ e ∈ es, EventOf d e) :
    (es.foldl Manager.upsertEventIn events).retain (ofCalendar c) = events.retain (ofCalendar c) := by
  induction es generalizing events with
  | nil => rfl
  | cons e es ih =>
    have he := hes e List.mem_cons_self
    have hnot : ofCalendar c e.id (eventRow e) = false := by simp [ofCalendar, eventRow, he.calendar, hne]
    rw [List.foldl_cons, ih (h.insert hd he) fun e' he' => hes e' (List.mem_cons_of_mem e he'), Manager.upsertEventIn,
      retain_insert_of_not _ hnot]
    exact erase_eq_self (lookup_retain_other h hd hne he.id)

theorem retain_foldl_erase (keep : Text → EventRow → Bool) (events : Table Text EventRow) (ids : List Text) :
    Table.retain keep (ids.foldl (fun t id => t.erase id) events) = ids.foldl (fun t id => t.erase id) (events.retain keep) := by
  induction ids generalizing events with
  | nil => rfl
  | cons i ids ih => rw [List.foldl_cons, ih, retain_erase, List.foldl_cons]

theorem foldl_erase_eq_self {events : Table Text EventRow} {ids : List Text} (h : ∀ id ∈ ids, events.lookup id = none) :
    ids.foldl (fun t id => t.erase id) events = events := by
  induction ids with
  | nil => rfl
  | cons i ids ih =>
    rw [List.foldl_cons, erase_eq_self (h i List.mem_cons_self)]
    exact ih fun id hid => h id (List.mem_cons_of_mem i hid)

theorem mem_idsInRange {id k : Text} {start stop : Bytes} {events : Table Text EventRow} :
    k ∈ Manager.idsInRange id start stop events ↔ ∃ row, events.lookup k = some row ∧ Manager.inRange id start stop row = true := by
  simp only [Manager.idsInRange, List.mem_map, List.mem_filter]
  constructor
  · rintro ⟨⟨k', row⟩, ⟨hrow, hrange⟩, rfl⟩
    exact ⟨row, mem_entries_iff.mp hrow, hrange⟩
  · rintro ⟨row, hrow, hrange⟩
    exact ⟨⟨k, row⟩, ⟨mem_entries_iff.mpr hrow, hrange⟩, rfl⟩

/-- Only rows of the calendar are in a range of it. -/
theorem inRange_entries (id : Text) (start stop : Bytes) (events : Table Text EventRow) :
    events.entries.filter (fun e => Manager.inRange id start stop e.2) =
      (events.retain (ofCalendar id)).entries.filter fun e => Manager.inRange id start stop e.2 := by
  rw [entries_retain, List.filter_filter]
  apply List.filter_congr
  intro e _
  cases hcal : ofCalendar id e.1 e.2 with
  | true => simp
  | false =>
    have hnot : (e.2.calendarId == id) = false := hcal
    simp [Manager.inRange, hnot]

theorem idsInRange_retain (id : Text) (start stop : Bytes) (events : Table Text EventRow) :
    Manager.idsInRange id start stop events = Manager.idsInRange id start stop (events.retain (ofCalendar id)) := by
  rw [Manager.idsInRange, inRange_entries]
  rfl

/-! ## Steps -/

theorem view_eq_iff {c : Text} {s t : Manager} : view c s = view c t ↔ s.calendars.lookup c = t.calendars.lookup c ∧
    s.cached.lookup c = t.cached.lookup c ∧ s.events.retain (ofCalendar c) = t.events.retain (ofCalendar c) := by
  simp [view]

theorem concerns_iff {c : Text} {op : Op} : op.concerns c = false ↔ ∃ d, op.calendar = some d ∧ d ≠ c := by
  cases h : op.calendar <;> simp [Op.concerns, h]

theorem retain_replaceRows {id : Text} (events : Table Text EventRow) (start stop : NaiveDateTime) {es : List CalendarEvent}
    (hes : ∀ e ∈ es, e.calendarId = id) : (Manager.replaceRows id start stop es events).retain (ofCalendar id) =
      Manager.replaceRows id start stop es (events.retain (ofCalendar id)) := by
  simp only [Manager.replaceRows, Manager.staleIds]
  rw [retain_foldl_erase, idsInRange_retain, retain_foldl_upsert events hes]

theorem retain_replaceRows_other {events : Table Text EventRow} (h : Owned events) {c d : Text} (hd : ':' ∉ d) (hne : d ≠ c)
    (start stop : NaiveDateTime) {es : List CalendarEvent} (hes : ∀ e ∈ es, EventOf d e) :
    (Manager.replaceRows d start stop es events).retain (ofCalendar c) = events.retain (ofCalendar c) := by
  have hupserted := h.foldl_upsert hd hes
  rw [Manager.replaceRows, retain_foldl_erase, foldl_erase_eq_self, retain_foldl_upsert_other h hd hne hes]
  intro k hk
  obtain ⟨row, hrow, hrange⟩ := mem_idsInRange.mp (List.mem_filter.mp hk).1
  have hcal : row.calendarId = d := by
    simp only [Manager.inRange, Bool.and_eq_true, beq_iff_eq] at hrange
    exact hrange.1.1
  exact lookup_retain_other hupserted hd hne (hcal ▸ (hupserted k row hrow).2)

/-- An operation of another calendar is not seen. -/
theorem view_step_other (reader : TimeReader) {m : Manager} (h : Owned m.events) {c : Text} {op : Op} (hop : op.Proper)
    (hother : op.concerns c = false) : view c (step reader m op) = view c m := by
  obtain ⟨d, hd, hne⟩ := concerns_iff.mp hother
  have hplain := hop.plain d hd
  have hevents := hop.events d hd
  rw [view_eq_iff]
  cases op with
  | addCalendar calendar failure =>
    obtain rfl : calendar.id = d := by simpa [Op.calendar] using hd
    simp only [step, Manager.addCalendar]
    cases failure with
    | some e => simp
    | none => cases m.calendars.lookup calendar.id <;> simp [Ne.symm hne]
  | updateConfig id config failure =>
    obtain rfl : id = d := by simpa [Op.calendar] using hd
    simp only [step, Manager.updateConfig]
    cases failure with
    | some e => simp
    | none => cases m.calendars.lookup id <;> simp [lookup_modify, Ne.symm hne]
  | setLastSync id time failure =>
    obtain rfl : id = d := by simpa [Op.calendar] using hd
    cases failure <;> simp [step, Manager.setLastSync, lookup_modify, Ne.symm hne]
  | removeCalendar id failure =>
    obtain rfl : id = d := by simpa [Op.calendar] using hd
    simp only [step, Manager.removeCalendar]
    cases failure with
    | some e => simp
    | none => cases m.calendars.lookup id <;> simp [Ne.symm hne]
  | upsertEvent event failure =>
    obtain rfl : event.calendarId = d := by simpa [Op.calendar] using hd
    have hkept := retain_foldl_upsert_other h hplain hne hevents
    cases failure with
    | some e => simp [step, Manager.upsertEvent]
    | none => exact ⟨rfl, rfl, hkept⟩
  | upsertEvents id events failure =>
    obtain rfl : id = d := by simpa [Op.calendar] using hd
    have hkept := retain_foldl_upsert_other h hplain hne hevents
    simp only [step, Manager.upsertEvents]
    cases m.cached.lookup id with
    | none => simp
    | some calendar => cases failure with
      | some e => simp
      | none => exact ⟨rfl, rfl, hkept⟩
  | replaceEventsInRange id start stop events failure =>
    obtain rfl : id = d := by simpa [Op.calendar] using hd
    have hkept := retain_replaceRows_other h hplain hne start stop hevents
    simp only [step, Manager.replaceEventsInRange]
    cases m.cached.lookup id with
    | none => simp
    | some calendar => cases failure with
      | some e => simp
      | none => exact ⟨rfl, rfl, hkept⟩
  | restart => cases hd

/-- What an operation of the calendar does to it is decided by what is seen. -/
theorem view_step_own (reader : TimeReader) {s t : Manager} {c : Text} {op : Op} (hop : op.Proper) (hown : op.concerns c = true)
    (hview : view c s = view c t) : view c (step reader s op) = view c (step reader t op) := by
  obtain ⟨hrow, hcached, hevents⟩ := view_eq_iff.mp hview
  rw [view_eq_iff]
  have hof : ∀ d, op.calendar = some d → d = c ∧ ∀ e ∈ op.events, e.calendarId = c := by
    intro d hd
    obtain rfl : d = c := by simpa [Op.concerns, hd] using hown
    exact ⟨rfl, fun e he => (hop.events d hd e he).calendar⟩
  cases op with
  | addCalendar calendar failure =>
    obtain ⟨rfl, -⟩ := hof _ rfl
    simp only [step, Manager.addCalendar]
    cases failure with
    | some e => exact ⟨hrow, hcached, hevents⟩
    | none =>
      rw [hrow]
      cases t.calendars.lookup calendar.id with
      | some row => exact ⟨hrow, hcached, hevents⟩
      | none => simp [hevents]
  | updateConfig id config failure =>
    obtain ⟨rfl, -⟩ := hof _ rfl
    simp only [step, Manager.updateConfig]
    cases failure with
    | some e => exact ⟨hrow, hcached, hevents⟩
    | none =>
      rw [hrow]
      cases t.calendars.lookup id with
      | none => exact ⟨hrow, hcached, hevents⟩
      | some row => simp [lookup_modify, hrow, hcached, hevents]
  | setLastSync id time failure =>
    obtain ⟨rfl, -⟩ := hof _ rfl
    cases failure <;> simp [step, Manager.setLastSync, lookup_modify, hrow, hcached, hevents]
  | removeCalendar id failure =>
    obtain ⟨rfl, -⟩ := hof _ rfl
    simp only [step, Manager.removeCalendar]
    cases failure with
    | some e => exact ⟨hrow, hcached, hevents⟩
    | none =>
      rw [hrow]
      cases t.calendars.lookup id with
      | none => exact ⟨hrow, hcached, hevents⟩
      | some row => simp [hevents]
  | upsertEvent event failure =>
    obtain ⟨rfl, hes⟩ := hof _ rfl
    cases failure with
    | some e => exact ⟨hrow, hcached, hevents⟩
    | none =>
      have hs := retain_foldl_upsert s.events hes
      have ht := retain_foldl_upsert t.events hes
      exact ⟨hrow, hcached, hs.trans (hevents ▸ ht.symm)⟩
  | upsertEvents id events failure =>
    obtain ⟨rfl, hes⟩ := hof _ rfl
    simp only [step, Manager.upsertEvents, hcached]
    cases t.cached.lookup id with
    | none => exact ⟨hrow, hcached, hevents⟩
    | some calendar => cases failure with
      | some e => exact ⟨hrow, hcached, hevents⟩
      | none =>
        have hs := retain_foldl_upsert s.events hes
        have ht := retain_foldl_upsert t.events hes
        exact ⟨hrow, hcached, hs.trans (hevents ▸ ht.symm)⟩
  | replaceEventsInRange id start stop events failure =>
    obtain ⟨rfl, hes⟩ := hof _ rfl
    simp only [step, Manager.replaceEventsInRange, hcached]
    cases t.cached.lookup id with
    | none => exact ⟨hrow, hcached, hevents⟩
    | some calendar => cases failure with
      | some e => exact ⟨hrow, hcached, hevents⟩
      | none =>
        have hs := retain_replaceRows s.events start stop hes
        have ht := retain_replaceRows t.events start stop hes
        exact ⟨hrow, hcached, hs.trans (hevents ▸ ht.symm)⟩
  | restart => exact ⟨hrow, by simp only [step, lookup_loadCalendars, hrow], hevents⟩

/-- A row was there before or is one of an event of the operation. -/
theorem lookup_step (reader : TimeReader) {m : Manager} {op : Op} {k : Text} {row : EventRow}
    (h : (step reader m op).events.lookup k = some row) :
    m.events.lookup k = some row ∨ ∃ e ∈ op.events, e.id = k ∧ eventRow e = row := by
  have hupserted : ∀ es : List CalendarEvent, (es.foldl Manager.upsertEventIn m.events).lookup k = some row →
      m.events.lookup k = some row ∨ ∃ e ∈ es, e.id = k ∧ eventRow e = row := by
    intro es hes
    rw [lookup_foldl_upsert] at hes
    cases hfind : es.reverse.find? (·.id = k) with
    | none => exact .inl (by simpa [hfind] using hes)
    | some e =>
      have hid : e.id = k := by simpa using List.find?_some hfind
      exact .inr ⟨e, List.mem_reverse.mp (List.mem_of_find?_eq_some hfind), hid, by simpa [hfind] using hes⟩
  cases op with
  | addCalendar calendar failure =>
    simp only [step, Manager.addCalendar] at h
    cases failure with
    | some e => exact .inl h
    | none => cases hrow : m.calendars.lookup calendar.id <;> simp [hrow] at h <;> exact .inl h
  | updateConfig id config failure =>
    simp only [step, Manager.updateConfig] at h
    cases failure with
    | some e => exact .inl h
    | none => cases hrow : m.calendars.lookup id <;> simp [hrow] at h <;> exact .inl h
  | setLastSync id time failure => cases failure <;> exact .inl h
  | removeCalendar id failure =>
    simp only [step, Manager.removeCalendar] at h
    cases failure with
    | some e => exact .inl h
    | none => cases hrow : m.calendars.lookup id <;> simp [hrow] at h <;> exact .inl h
  | upsertEvent event failure =>
    cases failure with
    | some e => exact .inl h
    | none => exact hupserted [event] h
  | upsertEvents id events failure =>
    cases hcached : m.cached.lookup id with
    | none => exact .inl (by simpa [step, Manager.upsertEvents, hcached] using h)
    | some calendar => cases failure with
      | some e => exact .inl (by simpa [step, Manager.upsertEvents, hcached] using h)
      | none => exact hupserted events (by simpa [step, Manager.upsertEvents, hcached] using h)
  | replaceEventsInRange id start stop events failure =>
    cases hcached : m.cached.lookup id with
    | none => exact .inl (by simpa [step, Manager.replaceEventsInRange, hcached] using h)
    | some calendar => cases failure with
      | some e => exact .inl (by simpa [step, Manager.replaceEventsInRange, hcached] using h)
      | none =>
        simp only [step, Manager.replaceEventsInRange, hcached, Manager.replaceRows, lookup_foldl_erase] at h
        split at h
        · cases h
        · exact hupserted events h
  | restart => exact .inl h

theorem Op.exists_calendar {op : Op} {e : CalendarEvent} (h : e ∈ op.events) : ∃ id, op.calendar = some id := by
  cases op with
  | upsertEvent | upsertEvents | replaceEventsInRange => exact ⟨_, rfl⟩
  | _ => cases h

theorem owned_step (reader : TimeReader) {m : Manager} (h : Owned m.events) {op : Op} (hop : op.Proper) :
    Owned (step reader m op).events := by
  intro k row hrow
  rcases lookup_step reader hrow with hold | ⟨e, he, rfl, rfl⟩
  · exact h k row hold
  · obtain ⟨id, hid⟩ := op.exists_calendar he
    have hof := hop.events id hid e he
    have hcal : (eventRow e).calendarId = id := hof.calendar
    rw [hcal]
    exact ⟨hop.plain id hid, hof.id⟩

theorem unwinds (reader : TimeReader) (c : Text) :
    Unwinds (fun m : Manager => Owned m.events) Op.Proper (step reader) (view c) (Op.concerns c) where
  keeps _ _ h hop := owned_step reader h hop
  decided _ _ _ _ _ hop hown hview := view_step_own reader hop hown hview
  others _ _ h hop hother := view_step_other reader h hop hother

theorem owned_empty : Owned Manager.empty.events := by
  intro id row hrow
  simp [Manager.empty] at hrow

/-- The answer to a query of a calendar is read off what is seen of it. -/
theorem getEvents_congr (reader : TimeReader) (now : NaiveDateTime) {s t : Manager} {c : Text} (h : view c s = view c t)
    (query : EventQuery) : s.getEvents reader now c query = t.getEvents reader now c query := by
  obtain ⟨-, hcached, hevents⟩ := view_eq_iff.mp h
  simp only [Manager.getEvents, Manager.selectEvents, hcached, inRange_entries c _ _ s.events, inRange_entries c _ _ t.events, hevents]

/-- What is stored and read of a calendar is decided by its own operations, whatever is done to the others. -/
theorem calendar_isolated (reader : TimeReader) {ops : List Op} (h : ∀ op ∈ ops, op.Proper) (c : Text) :
    let all := run reader ops .empty
    let own := run reader (ops.filter (Op.concerns c)) .empty
    view c all = view c own ∧ ∀ now query, all.getEvents reader now c query = own.getEvents reader now c query := by
  intro all own
  have hview : view c all = view c own := (unwinds reader c).view_foldl owned_empty owned_empty rfl h
  exact ⟨hview, fun now query => getEvents_congr reader now hview query⟩

def team : Calendar :=
  ⟨"team".toList, "Team".toList, none, .google, false, false, none, none,
    .google "primary".toList (some "access".toList) (some "refresh".toList) (some "client".toList) none none⟩

def standup : CalendarEvent where
  id := "team:1".toList
  calendarId := "team".toList
  uid := "1".toList
  summary := "Standup".toList
  description := none
  location := none
  start := nextDay
  stop := nextDay
  allDay := true
  status := .confirmed
  etag := none
  attendees := []
  organizer := none
  meetingUrl := none
  created := nextDay
  updated := nextDay

def home : Calendar := { team with id := "home".toList }

theorem eventOf_standup : EventOf team.id standup := ⟨rfl, by decide⟩

theorem timely_standup : Timely standup := ⟨by decide, by decide, by decide, by decide⟩

theorem proper_addCalendar {calendar : Calendar} (h : ':' ∉ calendar.id) (failure : Option Text) :
    (Op.addCalendar calendar failure).Proper := ⟨by simpa [Op.calendar] using h, by simp [Op.events]⟩

theorem calendar_isolated_team :
    let ops := [.addCalendar team none, .addCalendar home none, .upsertEvents team.id [standup] none]
    view team.id (run canonicalReader ops .empty) = view team.id (run canonicalReader (ops.filter (Op.concerns team.id)) .empty) := by
  intro ops
  have hevent : (Op.upsertEvents team.id [standup] none).Proper :=
    ⟨by simp [Op.calendar]; decide, by simpa [Op.calendar, Op.events] using eventOf_standup⟩
  have hproper : ∀ op ∈ ops, op.Proper := by
    simp only [ops, List.forall_mem_cons]
    exact ⟨proper_addCalendar (by decide) none, proper_addCalendar (by decide) none, hevent, by simp⟩
  exact (calendar_isolated canonicalReader hproper team.id).1

/-! ## Restarts -/

def Op.syncTime : Op → Option NaiveDateTime
  | .addCalendar calendar _ => calendar.lastSync
  | .setLastSync _ time _ => some time
  | _ => none

/-- What is in memory is what a new process would load. -/
def Mirrored (reader : TimeReader) (m : Manager) : Prop :=
  ∀ id, m.cached.lookup id = (m.calendars.lookup id).map (loadRow reader id)

theorem loadRow_config (reader : TimeReader) (id : Text) (row : CalendarRow) (config : CalendarConfig) :
    loadRow reader id { row with config := config.toColumns.1, secrets := config.toColumns.2 } =
      { loadRow reader id row with config := config } := by
  simp only [loadRow]
  congr 1
  by_cases hs : config.secrets = {}
  · simp [CalendarConfig.toColumns, hs, CalendarConfig.serialized_eq_self hs]
  · simp [CalendarConfig.toColumns, hs, config.applySecrets_secrets]

theorem loadRow_lastSync (reader : TimeReader) (id : Text) (row : CalendarRow) {time : NaiveDateTime} (h : FourDigits time) :
    loadRow reader id { row with lastSync := some (stored time) } = { loadRow reader id row with lastSync := some time } := by
  simp [loadRow, reader.read_stored time h]

theorem mirrored_step (reader : TimeReader) {m : Manager} (h : Mirrored reader m) {op : Op}
    (htime : ∀ t ∈ op.syncTime, FourDigits t) : Mirrored reader (step reader m op) := by
  intro k
  cases op with
  | addCalendar calendar failure =>
    simp only [step, Manager.addCalendar]
    cases failure with
    | some e => exact h k
    | none =>
      cases m.calendars.lookup calendar.id with
      | some row => exact h k
      | none =>
        simp only [lookup_insert]
        split
        next hk => rw [hk, Option.map_some, loadRow_calendarRow reader calendar htime]
        · exact h k
  | updateConfig id config failure =>
    simp only [step, Manager.updateConfig]
    cases failure with
    | some e => exact h k
    | none =>
      cases hrow : m.calendars.lookup id with
      | none => exact h k
      | some row =>
        simp only [lookup_modify]
        split
        next hk => simp [h id, hrow, hk, loadRow_config]
        · exact h k
  | setLastSync id time failure =>
    cases failure with
    | some e => exact h k
    | none =>
      simp only [step, Manager.setLastSync, lookup_modify]
      split
      next hk =>
        rw [h id, hk, Option.map_map, Option.map_map]
        congr 1
        funext row
        exact (loadRow_lastSync reader id row (htime time rfl)).symm
      · exact h k
  | removeCalendar id failure =>
    simp only [step, Manager.removeCalendar]
    cases failure with
    | some e => exact h k
    | none =>
      cases m.calendars.lookup id with
      | none => exact h k
      | some row =>
        simp only [lookup_erase]
        split
        · rfl
        · exact h k
  | upsertEvent event failure => cases failure <;> exact h k
  | upsertEvents id events failure =>
    simp only [step, Manager.upsertEvents]
    cases m.cached.lookup id <;> cases failure <;> exact h k
  | replaceEventsInRange id start stop events failure =>
    simp only [step, Manager.replaceEventsInRange]
    cases m.cached.lookup id <;> cases failure <;> exact h k
  | restart => exact lookup_loadCalendars reader m k

theorem mirrored_run (reader : TimeReader) {m : Manager} (h : Mirrored reader m) {ops : List Op}
    (hops : ∀ op ∈ ops, ∀ t ∈ op.syncTime, FourDigits t) : Mirrored reader (run reader ops m) := by
  have hstep : ∀ m op, Mirrored reader m → (∀ t ∈ Op.syncTime op, FourDigits t) → Mirrored reader (step reader m op) :=
    fun _ _ hm hop => mirrored_step reader hm hop
  exact inv_foldl hstep h hops

theorem mirrored_empty (reader : TimeReader) : Mirrored reader .empty := by
  intro id
  simp [Manager.empty]

theorem view_restart {reader : TimeReader} {m : Manager} (h : Mirrored reader m) (c : Text) :
    view c (m.loadCalendars reader) = view c m := by
  rw [view_eq_iff, lookup_loadCalendars, h c]
  exact ⟨rfl, rfl, rfl⟩

/-- The `config` column has no credentials. -/
def Plain (calendars : Table Text CalendarRow) : Prop := ∀ id row, calendars.lookup id = some row → row.config.secrets = {}

theorem plain_step (reader : TimeReader) {m : Manager} (h : Plain m.calendars) (op : Op) : Plain (step reader m op).calendars := by
  cases op with
  | addCalendar calendar failure =>
    simp only [step, Manager.addCalendar]
    cases failure with
    | some e => exact h
    | none =>
      cases m.calendars.lookup calendar.id with
      | some row => exact h
      | none =>
        intro id row hrow
        simp only [lookup_insert] at hrow
        split at hrow
        · cases hrow
          exact calendar.config.secrets_serialized
        · exact h id row hrow
  | updateConfig id config failure =>
    simp only [step, Manager.updateConfig]
    cases failure with
    | some e => exact h
    | none =>
      cases m.calendars.lookup id with
      | none => exact h
      | some old =>
        intro k row hrow
        simp only [lookup_modify] at hrow
        split at hrow
        · obtain ⟨_, -, rfl⟩ := Option.map_eq_some_iff.mp hrow
          exact config.secrets_serialized
        · exact h k row hrow
  | setLastSync id time failure =>
    cases failure with
    | some e => exact h
    | none =>
      intro k row hrow
      simp only [step, Manager.setLastSync, lookup_modify] at hrow
      split at hrow
      · obtain ⟨old, hold, rfl⟩ := Option.map_eq_some_iff.mp hrow
        exact h id old hold
      · exact h k row hrow
  | removeCalendar id failure =>
    simp only [step, Manager.removeCalendar]
    cases failure with
    | some e => exact h
    | none =>
      cases m.calendars.lookup id with
      | none => exact h
      | some old =>
        intro k row hrow
        simp only [lookup_erase] at hrow
        split at hrow
        · cases hrow
        · exact h k row hrow
  | upsertEvent event failure => cases failure <;> exact h
  | upsertEvents id events failure =>
    simp only [step, Manager.upsertEvents]
    cases m.cached.lookup id <;> cases failure <;> exact h
  | replaceEventsInRange id start stop events failure =>
    simp only [step, Manager.replaceEventsInRange]
    cases m.cached.lookup id <;> cases failure <;> exact h
  | restart => exact h

theorem plain_run (reader : TimeReader) (ops : List Op) : Plain (run reader ops .empty).calendars := by
  have hempty : Plain Manager.empty.calendars := by
    intro id row hrow
    simp [Manager.empty] at hrow
  have hstep : ∀ m op, Plain m.calendars → True → Plain (step reader m op).calendars := fun _ op hm _ => plain_step reader hm op
  exact inv_foldl hstep hempty fun _ _ => trivial

/-- A restart anywhere in a run changes nothing that is seen of a calendar after it, its credentials included, though
these are not in the column of the configurations. -/
theorem restart_unseen (reader : TimeReader) {before after : List Op} (h : ∀ op ∈ before ++ after, op.Proper)
    (htime : ∀ op ∈ before, ∀ t ∈ op.syncTime, FourDigits t) (c : Text) :
    view c (run reader (before ++ .restart :: after) .empty) = view c (run reader (before ++ after) .empty) ∧
      Plain (run reader (before ++ .restart :: after) .empty).calendars := by
  refine ⟨?_, plain_run reader _⟩
  have hbefore : ∀ op ∈ before, op.Proper := fun op hop => h op (List.mem_append_left _ hop)
  have hafter : ∀ op ∈ after, op.Proper := fun op hop => h op (List.mem_append_right _ hop)
  have howned : Owned (run reader before .empty).events := inv_foldl (unwinds reader c).keeps owned_empty hbefore
  have hrestart : view c (step reader (run reader before .empty) .restart) = view c (run reader before .empty) :=
    view_restart (mirrored_run reader (mirrored_empty reader) htime) c
  have hloaded : Owned (step reader (run reader before .empty) .restart).events := howned
  simp only [run, List.foldl_append, List.foldl_cons] at *
  rw [(unwinds reader c).view_foldl hloaded howned hrestart hafter]
  exact ((unwinds reader c).view_foldl howned howned rfl hafter).symm

theorem restart_unseen_team :
    view team.id (run canonicalReader ([.addCalendar team none] ++ .restart :: [.setLastSync team.id nextDay none]) .empty) =
      view team.id (run canonicalReader ([.addCalendar team none] ++ [.setLastSync team.id nextDay none]) .empty) := by
  have hsync : (Op.setLastSync team.id nextDay none).Proper := ⟨by simp [Op.calendar]; decide, by simp [Op.events]⟩
  have hproper : ∀ op ∈ [Op.addCalendar team none] ++ [.setLastSync team.id nextDay none], op.Proper := by
    simp only [List.singleton_append, List.forall_mem_cons]
    exact ⟨proper_addCalendar (by decide) none, hsync, by simp⟩
  exact (restart_unseen canonicalReader hproper (by simp [Op.syncTime, team]) team.id).1

end CalendarStore
